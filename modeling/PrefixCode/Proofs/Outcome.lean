/-
# How a run ends

A run that fails stops at the first thing that is wrong, and these come in a fixed order: the
lengths cannot be read, or they are no listing, or they describe no code; then a character of the
bit text is no bit; and last, the bits cannot be decoded.  Each stage is described here by itself:
what a source lists (`Source.Lists`), whether an invocation has a table (`Invocation.Builds`), and
how its action comes out with that table (`Action.cases`).  The reply of a run is known for each way
to end, and the exit status tells apart success, bits that cannot be decoded, and everything else.
-/
import PrefixCode.Proofs.Printing

namespace PrefixCode

namespace Text

lemma fromUTF8?_eq_some_iff {bytes : ByteArray} {text : String} :
    String.fromUTF8? bytes = some text ↔ bytes = text.toUTF8 := by
  rw [String.fromUTF8?]
  constructor
  · intro h
    split at h
    · cases h
      rfl
    · cases h
  · rintro rfl
    exact dif_pos text.isValidUTF8

end Text

namespace Command

open PrefixCode.Text

variable {inputs : Inputs} {invocation : Invocation} {source : Source} {action : Action}
  {lengths : List UInt8} {table : Table} {failure : Failure} {text : String} {verbose : Bool}
  {report : String}

/-! ### Getting the lengths -/

/-- The source can be read, and these are the lengths that it lists. -/
inductive Source.Lists (inputs : Inputs) : Source → List UInt8 → Prop
  | listing {text : String} {lengths : List UInt8} (h : Listing.parse text = .ok lengths) :
      Lists inputs (.listing text) lengths
  | file {path text : String} {lengths : List UInt8}
      (hread : inputs.file path = .bytes text.toUTF8) (h : Listing.parse text = .ok lengths) :
      Lists inputs (.file path) lengths
  | standardInput {text : String} {lengths : List UInt8}
      (hread : inputs.standardInput = .bytes text.toUTF8) (h : Listing.parse text = .ok lengths) :
      Lists inputs .standardInput lengths
  | fixed (code : FixedCode) : Lists inputs (.fixed code) code.lengths

/-- An input lists the lengths of the text that its bytes are the UTF-8 form of. -/
lemma Reading.lengths_eq_ok_iff {reading : Reading} : reading.lengths = .ok lengths ↔
    ∃ text : String, reading = .bytes text.toUTF8 ∧ Listing.parse text = .ok lengths := by
  cases reading with
  | notOpened fault => exact ⟨nofun, nofun⟩
  | notRead fault => exact ⟨nofun, nofun⟩
  | bytes content =>
    rw [Reading.lengths, Except.mapError_eq_ok_iff, Listing.ofBytes]
    constructor
    · intro h
      split at h
      · cases h
      · rename_i text htext
        exact ⟨text, by rw [fromUTF8?_eq_some_iff.1 htext], Except.mapError_eq_ok_iff.1 h⟩
    · rintro ⟨text, hcontent, h⟩
      cases hcontent
      rw [fromUTF8?_eq_some_iff.2 rfl]
      exact Except.mapError_eq_ok_iff.2 h

theorem Source.lists_iff : source.Lists inputs lengths ↔ source.lengths inputs = .ok lengths := by
  constructor
  · rintro (h | ⟨hread, h⟩ | ⟨hread, h⟩ | code)
    · exact Except.mapError_eq_ok_iff.2 h
    · exact Reading.lengths_eq_ok_iff.2 ⟨_, hread, h⟩
    · exact Reading.lengths_eq_ok_iff.2 ⟨_, hread, h⟩
    · rfl
  · intro h
    cases source with
    | listing text => exact .listing (Except.mapError_eq_ok_iff.1 h)
    | file path =>
      obtain ⟨text, hread, h⟩ := Reading.lengths_eq_ok_iff.1 h
      exact .file hread h
    | standardInput =>
      obtain ⟨text, hread, h⟩ := Reading.lengths_eq_ok_iff.1 h
      exact .standardInput hread h
    | fixed code =>
      cases h
      exact .fixed code

lemma Reading.status_eq_two {reading : Reading} (h : reading.lengths = .error failure) :
    failure.status = 2 := by
  cases reading with
  | notOpened fault => cases h; rfl
  | notRead fault => cases h; rfl
  | bytes content =>
    obtain ⟨e, -, rfl⟩ := Except.mapError_eq_error_iff.1 h
    rfl

lemma Source.status_eq_two (h : source.lengths inputs = .error failure) :
    failure.status = 2 := by
  cases source with
  | listing text =>
    obtain ⟨e, -, rfl⟩ := Except.mapError_eq_error_iff.1 h
    rfl
  | file path => exact Reading.status_eq_two h
  | standardInput => exact Reading.status_eq_two h
  | fixed code => cases h

/-! ### Getting the table -/

/-- The source of the invocation lists these lengths, and they describe the code that has this
table. -/
structure Invocation.Builds (inputs : Inputs) (invocation : Invocation) (lengths : List UInt8)
    (table : Table) : Prop where
  lists : invocation.source.Lists inputs lengths
  ofLengths_eq : Table.ofLengths invocation.limits lengths = .ok table

lemma Invocation.builds_iff :
    invocation.Builds inputs lengths table ↔ invocation.table inputs = .ok (lengths, table) := by
  rw [table_eq_ok_iff, ← Source.lists_iff]
  exact ⟨fun ⟨hlists, htable⟩ => ⟨hlists, htable⟩, fun ⟨hlists, htable⟩ => ⟨hlists, htable⟩⟩

lemma Invocation.status_eq_two (h : invocation.table inputs = .error failure) :
    failure.status = 2 := by
  rw [table, Except.bind_eq_error_iff] at h
  rcases h with h | ⟨lengths, -, h⟩
  · exact Source.status_eq_two h
  · rw [Except.map_eq_error_iff, Except.mapError_eq_error_iff] at h
    obtain ⟨e, -, rfl⟩ := h
    rfl

/-- What an invocation has a table for, and how much it reports, is left out of it. -/
lemma Invocation.Builds.update (h : invocation.Builds inputs lengths table) (action : Action)
    (verbose : Bool) : Builds inputs { invocation with action, verbose } lengths table :=
  ⟨h.lists, h.ofLengths_eq⟩

/-- With a table, a run is that of its action. -/
theorem Invocation.Builds.run_eq (h : invocation.Builds inputs lengths table) :
    invocation.run inputs = invocation.action.run table invocation.verbose
      (if invocation.verbose then tableReport lengths.length table else "") := by
  rw [run, builds_iff.1 h]

/-- Without a table, a run fails in the same way whatever it was to do. -/
theorem Invocation.exists_run_eq (h : ∀ lengths table, ¬ invocation.Builds inputs lengths table) :
    ∃ failure : Failure, failure.status = 2 ∧ ∀ action verbose,
      Invocation.run inputs { invocation with action, verbose } = failure.reply "" := by
  cases htable : invocation.table inputs with
  | ok found => exact absurd (builds_iff.2 htable) (h found.1 found.2)
  | error failure =>
    refine ⟨failure, status_eq_two htable, fun action verbose => ?_⟩
    have hsame : Invocation.table inputs { invocation with action, verbose } = .error failure :=
      htable
    rw [run, hsame]

/-! ### The action -/

/-- With this table, the action does what it is to do: it prints the code, or the bits of its text
decode to a message. -/
inductive Action.Succeeds (table : Table) : Action → Prop
  | codes : Succeeds table .codes
  | decode {text : String} {bs : List Bool} {message : List UInt16}
      (hbits : Filled (bs.map digit) text.toList) (h : table.decodeAll bs = .ok message) :
      Succeeds table (.decode text)

/-- The action is to decode a text that has bits, and with this table they do not decode. -/
inductive Action.FailsToDecode (table : Table) : Action → DecodeError → Prop
  | decode {text : String} {bs : List Bool} {error : DecodeError}
      (hbits : Filled (bs.map digit) text.toList) (h : table.decodeAll bs = .error error) :
      FailsToDecode table (.decode text) error

/-- How an action can come out. -/
theorem Action.cases (table : Table) (action : Action) : action.Succeeds table ∨
    (∃ error, action.FailsToDecode table error) ∨
    ∃ text c, action = .decode text ∧ firstOther? text = some c := by
  cases action with
  | codes => exact Or.inl .codes
  | decode text =>
    cases hbits : bits text with
    | error c => exact Or.inr (Or.inr ⟨text, c, rfl, bits_eq_error_iff.1 hbits⟩)
    | ok bs =>
      have hfilled := bits_eq_ok_iff_filled.1 hbits
      cases hdecode : table.decodeAll bs with
      | ok message => exact Or.inl (.decode hfilled hdecode)
      | error error => exact Or.inr (Or.inl ⟨error, .decode hfilled hdecode⟩)

lemma Failure.reply_notBit (c : Char) (report : String) : (notBit c).reply report =
    ⟨2, "", report ++ "Error: invalid bit " ++ quote '\'' [c] ++ " (expected 0 or 1)\n"⟩ := by
  have hopening : "Error: invalid bit " = "Error: " ++ "invalid bit " := by decide
  have hclosing : " (expected 0 or 1)\n" = " (expected 0 or 1)" ++ "\n" := by decide
  rw [hopening, hclosing]
  simp only [reply, message, status, String.append_assoc]

lemma Action.run_of_notBit {c : Char} (h : firstOther? text = some c) (table : Table)
    (verbose : Bool) (report : String) :
    Action.run table verbose report (.decode text) = (Failure.notBit c).reply report := by
  rw [Action.run, decodeText, bits_eq_error_iff.2 h]
  rfl

lemma Action.run_of_failsToDecode {error : DecodeError} (h : action.FailsToDecode table error)
    (verbose : Bool) (report : String) :
    action.run table verbose report = (Failure.undecodable error).reply report := by
  obtain ⟨hbits, h⟩ := h
  rw [Action.run, decodeText, bits_eq_ok_iff_filled.2 hbits]
  simp only [Except.mapError, Except.bind, h, Except.map]

lemma Action.run_of_decodes {bs : List Bool} {message : List UInt16}
    (hbits : Filled (bs.map digit) text.toList) (h : table.decodeAll bs = .ok message)
    (verbose : Bool) (report : String) :
    Action.run table verbose report (.decode text) = ⟨0, symbolsText message,
      report ++ if verbose then decodeReport message.length bs.length else ""⟩ := by
  rw [Action.run, decodeText_eq_ok_iff.2 ⟨bs, bits_eq_ok_iff_filled.2 hbits, h, rfl⟩]

/-! ### Ways to end -/

lemma Action.Succeeds.status_eq (h : action.Succeeds table) (verbose : Bool) (report : String) :
    (action.run table verbose report).status = 0 := by
  cases h with
  | codes => rfl
  | decode hbits h => rw [run_of_decodes hbits h]

/-- The run has a table, and succeeds with it. -/
def Invocation.Succeeds (inputs : Inputs) (invocation : Invocation) : Prop :=
  ∃ lengths table, invocation.Builds inputs lengths table ∧ invocation.action.Succeeds table

/-- The run has a table, and the bits that it is to decode do not decode with it. -/
def Invocation.FailsToDecode (inputs : Inputs) (invocation : Invocation) : Prop :=
  ∃ lengths table error, invocation.Builds inputs lengths table ∧
    invocation.action.FailsToDecode table error

namespace Invocation

lemma Succeeds.status_eq (h : invocation.Succeeds inputs) :
    (invocation.run inputs).status = 0 := by
  obtain ⟨lengths, table, hbuilds, h⟩ := h
  rw [hbuilds.run_eq]
  exact h.status_eq _ _

lemma FailsToDecode.status_eq_and_output_eq (h : invocation.FailsToDecode inputs) :
    (invocation.run inputs).status = 1 ∧ (invocation.run inputs).output = "" := by
  obtain ⟨lengths, table, error, hbuilds, h⟩ := h
  rw [hbuilds.run_eq, Action.run_of_failsToDecode h]
  exact ⟨rfl, rfl⟩

/-- A run that does neither is refused before anything is decoded. -/
lemma status_eq_and_output_eq (h : ¬ invocation.Succeeds inputs)
    (h' : ¬ invocation.FailsToDecode inputs) :
    (invocation.run inputs).status = 2 ∧ (invocation.run inputs).output = "" := by
  by_cases hbuilds : ∃ lengths table, invocation.Builds inputs lengths table
  · obtain ⟨lengths, table, hbuilds⟩ := hbuilds
    rcases invocation.action.cases table with hok | ⟨error, herror⟩ | ⟨text, c, haction, hc⟩
    · exact absurd ⟨lengths, table, hbuilds, hok⟩ h
    · exact absurd ⟨lengths, table, error, hbuilds, herror⟩ h'
    · rw [hbuilds.run_eq, haction, Action.run_of_notBit hc]
      exact ⟨rfl, rfl⟩
  · simp only [not_exists] at hbuilds
    obtain ⟨failure, hstatus, hrun⟩ := exists_run_eq hbuilds
    have hsame : invocation.run inputs = failure.reply "" :=
      hrun invocation.action invocation.verbose
    rw [hsame]
    exact ⟨hstatus, rfl⟩

/-- A run ends in one of three ways, and each has a status of its own. -/
theorem run_cases (inputs : Inputs) (invocation : Invocation) :
    (invocation.Succeeds inputs ∧ ¬ invocation.FailsToDecode inputs ∧
      (invocation.run inputs).status = 0) ∨
    (¬ invocation.Succeeds inputs ∧ invocation.FailsToDecode inputs ∧
      (invocation.run inputs).status = 1 ∧ (invocation.run inputs).output = "") ∨
    (¬ invocation.Succeeds inputs ∧ ¬ invocation.FailsToDecode inputs ∧
      (invocation.run inputs).status = 2 ∧ (invocation.run inputs).output = "") := by
  have hexcludes : invocation.Succeeds inputs → ¬ invocation.FailsToDecode inputs := by
    intro hok hfail
    have hstatus := hfail.status_eq_and_output_eq.1
    rw [hok.status_eq] at hstatus
    cases hstatus
  by_cases hok : invocation.Succeeds inputs
  · exact Or.inl ⟨hok, hexcludes hok, hok.status_eq⟩
  · by_cases hfail : invocation.FailsToDecode inputs
    · exact Or.inr (Or.inl ⟨hok, hfail, hfail.status_eq_and_output_eq⟩)
    · exact Or.inr (Or.inr ⟨hok, hfail, status_eq_and_output_eq hok hfail⟩)

end Invocation

/-- **The exit status tells how a run ends.**  It is 0 if the lengths can be read, they describe a
code, and the code is printed or the bits of the text decode to a message; it is 1 if the bits
cannot be decoded, though there is nothing else that is wrong; and it is 2 in all other cases.
Where it is not 0, there is no output.  If the lengths are not to be had or describe no code, the
reply is the same whatever is to be done, and so for every bit text; if they do, and the text has a
character that may not stand in it, the reply names the first such character, whatever bits come
before it. -/
theorem exit_status_tells_how_a_run_ends (inputs : Inputs) (invocation : Invocation) :
    ((invocation.run inputs).status = 0 ↔ invocation.Succeeds inputs) ∧
    ((invocation.run inputs).status = 1 ↔ invocation.FailsToDecode inputs) ∧
    ((invocation.run inputs).status = 2 ↔
      ¬ invocation.Succeeds inputs ∧ ¬ invocation.FailsToDecode inputs) ∧
    ((invocation.run inputs).status ≠ 0 → (invocation.run inputs).output = "") ∧
    ((∀ lengths table, ¬ invocation.Builds inputs lengths table) → ∀ action,
      Invocation.run inputs { invocation with action } = invocation.run inputs) ∧
    ∀ lengths table text, invocation.Builds inputs lengths table →
      invocation.action = .decode text → (∃ c ∈ text.toList, ¬ IsBitOrFiller c) →
      ∃ c, firstOther? text = some c ∧ invocation.run inputs = ⟨2, "",
        (if invocation.verbose then tableReport lengths.length table else "") ++
          "Error: invalid bit " ++ quote '\'' [c] ++ " (expected 0 or 1)\n"⟩ := by
  have hways := Invocation.run_cases inputs invocation
  refine ⟨?_, ?_, ?_, fun hne => ?_, fun hbuilds action => ?_,
    fun lengths table text hbuilds haction hother => ?_⟩
  · rcases hways with ⟨hok, hfail, hs⟩ | ⟨hok, hfail, hs, -⟩ | ⟨hok, hfail, hs, -⟩ <;>
      simp [hok, hs]
  · rcases hways with ⟨hok, hfail, hs⟩ | ⟨hok, hfail, hs, -⟩ | ⟨hok, hfail, hs, -⟩ <;>
      simp [hfail, hs]
  · rcases hways with ⟨hok, hfail, hs⟩ | ⟨hok, hfail, hs, -⟩ | ⟨hok, hfail, hs, -⟩ <;>
      simp [hok, hfail, hs]
  · rcases hways with ⟨-, -, hs⟩ | ⟨-, -, -, houtput⟩ | ⟨-, -, -, houtput⟩
    · exact absurd hs hne
    · exact houtput
    · exact houtput
  · obtain ⟨failure, -, hrun⟩ := Invocation.exists_run_eq hbuilds
    exact (hrun action invocation.verbose).trans (hrun invocation.action invocation.verbose).symm
  · obtain ⟨c, hc⟩ := exists_firstOther?_eq_some hother
    refine ⟨c, hc, ?_⟩
    rw [hbuilds.run_eq, haction, Action.run_of_notBit hc, Failure.reply_notBit]

/-- The code of four symbols is printed, and the bits `11` do not decode with it; the text `11x0y`
is refused for its third character, though its bits would not decode either; and if the listing is
not to be had, no bit text makes a difference. -/
theorem runs_of_one_code : ∃ inputs : Inputs,
    (Invocation.run inputs ⟨.deflate, false, .listing "2,1,0,3,3", .codes⟩).status = 0 ∧
    (Invocation.run inputs ⟨.deflate, true, .listing "2,1,0,3,3", .decode "1 1"⟩).status = 1 ∧
    (Invocation.run inputs ⟨.deflate, true, .listing "2,1,0,3,3", .decode "1 1"⟩).output = "" ∧
    Invocation.run inputs ⟨.deflate, false, .listing "2,1,0,3,3", .decode "11x0y"⟩ =
      ⟨2, "", "Error: invalid bit 'x' (expected 0 or 1)\n"⟩ ∧
    (Invocation.run inputs ⟨.deflate, false, .file "lost", .decode "11x0y"⟩).status = 2 ∧
    ∀ text, Invocation.run inputs ⟨.deflate, false, .file "lost", .decode text⟩ =
      Invocation.run inputs ⟨.deflate, false, .file "lost", .codes⟩ := by
  refine ⟨⟨.bytes .empty, fun _ => .notOpened ⟨"No such file or directory", 2⟩⟩, ?_⟩
  generalize hinputs : (⟨.bytes .empty, fun _ => .notOpened ⟨"No such file or directory", 2⟩⟩ :
    Inputs) = inputs
  have hlengths : Listing.parse "2,1,0,3,3" = .ok [2, 1, 0, 3, 3] := by decide +kernel
  have htable : Table.ofLengths .deflate [2, 1, 0, 3, 3] =
      .ok ⟨3, #[⟨0, 1, 0⟩, ⟨2, 1, 1⟩, ⟨6, 2, 2⟩], #[1, 0, 3, 4], true⟩ := by decide +kernel
  have hbuilds (verbose : Bool) (action : Action) :
      Invocation.Builds inputs ⟨.deflate, verbose, .listing "2,1,0,3,3", action⟩ [2, 1, 0, 3, 3]
        ⟨3, #[⟨0, 1, 0⟩, ⟨2, 1, 1⟩, ⟨6, 2, 2⟩], #[1, 0, 3, 4], true⟩ := ⟨.listing hlengths, htable⟩
  have hlost (action : Action) (lengths : List UInt8) (table : Table) :
      ¬ Invocation.Builds inputs ⟨.deflate, false, .file "lost", action⟩ lengths table := by
    rintro ⟨hlists, -⟩
    subst hinputs
    cases hlists with
    | file hread => cases hread
  have hbits : Filled ([true, true].map digit) "1 1".toList :=
    bits_eq_ok_iff_filled.1 (by decide +kernel)
  have hend : Table.decodeAll ⟨3, #[⟨0, 1, 0⟩, ⟨2, 1, 1⟩, ⟨6, 2, 2⟩], #[1, 0, 3, 4], true⟩
      [true, true] = .error .endOfInput := by decide +kernel
  obtain ⟨hcodes, -⟩ := exit_status_tells_how_a_run_ends inputs
    ⟨.deflate, false, .listing "2,1,0,3,3", .codes⟩
  obtain ⟨-, hfails, -, hempty, -⟩ := exit_status_tells_how_a_run_ends inputs
    ⟨.deflate, true, .listing "2,1,0,3,3", .decode "1 1"⟩
  obtain ⟨-, -, -, -, -, hother⟩ := exit_status_tells_how_a_run_ends inputs
    ⟨.deflate, false, .listing "2,1,0,3,3", .decode "11x0y"⟩
  obtain ⟨-, -, hrefused, -⟩ := exit_status_tells_how_a_run_ends inputs
    ⟨.deflate, false, .file "lost", .decode "11x0y"⟩
  obtain ⟨-, -, -, -, hsame, -⟩ := exit_status_tells_how_a_run_ends inputs
    ⟨.deflate, false, .file "lost", .codes⟩
  have hstatus := hfails.2 ⟨_, _, _, hbuilds _ _, .decode hbits hend⟩
  refine ⟨hcodes.2 ⟨_, _, hbuilds _ _, .codes⟩, hstatus, hempty (by rw [hstatus]; decide), ?_,
    hrefused.2 ⟨?_, ?_⟩, fun text => hsame (hlost _) _⟩
  · obtain ⟨c, hc, hrun⟩ := hother _ _ _ (hbuilds _ _) rfl ⟨'x', by decide +kernel, by decide⟩
    obtain rfl : c = 'x' := Option.some.inj (hc.symm.trans (by decide +kernel))
    exact hrun.trans (by decide +kernel)
  · rintro ⟨lengths, table, hbuilds, -⟩
    exact hlost _ _ _ hbuilds
  · rintro ⟨lengths, table, error, hbuilds, -⟩
    exact hlost _ _ _ hbuilds

end Command

end PrefixCode
