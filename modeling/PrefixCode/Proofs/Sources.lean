/-
# Listings from different sources

A listing may stand on the command line, or in what a path leads to: a file, or standard input for
a hyphen (`Inputs.Holds`).  On the command line it is a text already; elsewhere it is bytes, and
these have to be a text as a whole before any item of it is looked at.  If they are, it makes no
difference where the listing stands (`Inputs.Holds.run_eq_run_listing`); if not, this is what a run
fails with, whatever can be read in front of the place where they go wrong
(`Inputs.Holds.run_of_not_wellFormed`).
-/
import PrefixCode.Proofs.Utf8

namespace PrefixCode.Command

open PrefixCode.Text

variable {inputs : Inputs} {path : String} {bytes : ByteArray} {text : String}

/-- If the lengths cannot be got, a run reports why, and nothing else. -/
lemma Invocation.run_of_lengths_eq_error {invocation : Invocation} {failure : Failure}
    (h : invocation.source.lengths inputs = .error failure) :
    invocation.run inputs = failure.reply "" := by
  rw [run, table, h]
  rfl

/-- A listing on the command line is run without any input. -/
lemma Invocation.run_listing_congr (inputs inputs' : Inputs) (limits : Limits) (verbose : Bool)
    (text : String) (action : Action) :
    Invocation.run inputs ⟨limits, verbose, .listing text, action⟩ =
      Invocation.run inputs' ⟨limits, verbose, .listing text, action⟩ :=
  rfl

/-- These bytes are where the path leads to: on standard input for a hyphen, and for any other
path in the file of this name. -/
inductive Inputs.Holds (inputs : Inputs) : String → ByteArray → Prop
  | file {path : String} {bytes : ByteArray} (hne : path ≠ "-")
      (h : inputs.file path = .bytes bytes) : Holds inputs path bytes
  | standardInput {bytes : ByteArray} (h : inputs.standardInput = .bytes bytes) :
      Holds inputs "-" bytes

namespace Inputs.Holds

/-- What is read for the path is the listing that the bytes are. -/
lemma lengths_ofPath (h : inputs.Holds path bytes) :
    (Source.ofPath path).lengths inputs = (Listing.ofBytes bytes).mapError .listing := by
  cases h with
  | file hne h => rw [Source.ofPath, if_neg hne, Source.lengths, h, Reading.lengths]
  | standardInput h => rw [Source.ofPath, if_pos rfl, Source.lengths, h, Reading.lengths]

/-- A run is the same for the text and for a path that leads to its bytes. -/
theorem run_eq_run_listing (h : inputs.Holds path text.toUTF8) (limits : Limits) (verbose : Bool)
    (action : Action) :
    Invocation.run inputs ⟨limits, verbose, .ofPath path, action⟩ =
      Invocation.run inputs ⟨limits, verbose, .listing text, action⟩ := by
  have hread : Listing.ofBytes text.toUTF8 = (Listing.parse text).mapError .lengths := by
    rw [Listing.ofBytes, fromUTF8?_eq_some_iff.2 rfl]
  have hpath := h.lengths_ofPath
  have hlisting : (Source.listing text).lengths inputs = (Listing.parse text).mapError .lengths :=
    rfl
  rw [hread] at hpath
  cases hparse : Listing.parse text with
  | ok lengths =>
    rw [hparse] at hpath hlisting
    simp only [Invocation.run, Invocation.table, hpath, hlisting, Except.mapError]
  -- the two failures differ in how the error has come about, but not in what they report
  | error e =>
    rw [hparse] at hpath hlisting
    rw [Invocation.run_of_lengths_eq_error hpath, Invocation.run_of_lengths_eq_error hlisting]
    rfl

/-- A run fails for bytes that are not a text. -/
theorem run_of_not_wellFormed (h : inputs.Holds path bytes)
    (hbytes : ¬ WellFormed bytes.data.toList) (limits : Limits) (verbose : Bool)
    (action : Action) :
    Invocation.run inputs ⟨limits, verbose, .ofPath path, action⟩ =
      ⟨2, "", "Error: I/O error: stream did not contain valid UTF-8\n"⟩ := by
  have hpath := h.lengths_ofPath
  rw [Listing.ofBytes, fromUTF8?_eq_none_iff.2 hbytes] at hpath
  rw [Invocation.run_of_lengths_eq_error hpath]
  decide +kernel

end Inputs.Holds

/-- **It makes no difference where a listing stands.**  A run for a path that leads to the bytes of
a text, be it a file or standard input, has the same status, the same output and the same errors as
one for the text itself, which needs no input.  If the bytes are not those of a text, this is what
is reported, and nothing that can be read in front of the place where they go wrong changes it.
The bytes of texts are the well-formed ones. -/
theorem sources_agree (inputs : Inputs) (path : String) (limits : Limits) (verbose : Bool)
    (action : Action) :
    (∀ text : String, inputs.Holds path text.toUTF8 → ∀ inputs' : Inputs,
      Invocation.run inputs ⟨limits, verbose, .ofPath path, action⟩ =
        Invocation.run inputs' ⟨limits, verbose, .listing text, action⟩) ∧
    (∀ bytes : ByteArray, ¬ WellFormed bytes.data.toList → inputs.Holds path bytes →
      Invocation.run inputs ⟨limits, verbose, .ofPath path, action⟩ =
        ⟨2, "", "Error: I/O error: stream did not contain valid UTF-8\n"⟩) ∧
    (∀ (text : String) (bytes : ByteArray), ¬ WellFormed bytes.data.toList →
      ¬ WellFormed (text.toUTF8 ++ bytes).data.toList) ∧
    ∀ bytes : ByteArray, WellFormed bytes.data.toList ↔ ∃ text : String, bytes = text.toUTF8 := by
  refine ⟨fun text h inputs' => ?_, fun bytes hbytes h => h.run_of_not_wellFormed hbytes _ _ _,
    fun text bytes hbytes => mt (wellFormed_append_iff text).1 hbytes, fun bytes => wellFormed_iff⟩
  rw [h.run_eq_run_listing]
  exact Invocation.run_listing_congr inputs inputs' limits verbose text action

/-- A listing with wide spaces in a file, and one on standard input where a malformed item stands in
front of a comma that is written with two bytes. -/
theorem listing_in_a_file_and_ill_formed_input : ∃ inputs : Inputs,
    inputs.Holds "a" "2\u30001\u00a03*2".toUTF8 ∧
    Invocation.run inputs ⟨.deflate, false, .ofPath "a", .decode "0_10"⟩ = ⟨0, "1 0\n", ""⟩ ∧
    inputs.Holds "-" ("x 1".toUTF8 ++ ⟨#[0xC0, 0xAC]⟩) ∧
    Invocation.run inputs ⟨.deflate, false, .ofPath "-", .codes⟩ =
      ⟨2, "", "Error: I/O error: stream did not contain valid UTF-8\n"⟩ := by
  obtain ⟨inputs, hinput, hfile⟩ : ∃ inputs : Inputs,
      inputs.standardInput = .bytes ("x 1".toUTF8 ++ ⟨#[0xC0, 0xAC]⟩) ∧
      inputs.file "a" = .bytes "2\u30001\u00a03*2".toUTF8 := ⟨⟨_, fun _ => _⟩, rfl, rfl⟩
  have hcomma : ¬ WellFormed (ByteArray.mk #[0xC0, 0xAC]).data.toList :=
    fromUTF8?_eq_none_iff.1 (by decide +kernel)
  obtain ⟨hsame, -⟩ := sources_agree inputs "a" .deflate false (.decode "0_10")
  obtain ⟨-, hfails, hfront, -⟩ := sources_agree inputs "-" .deflate false .codes
  refine ⟨inputs, .file (by decide) hfile, ?_, .standardInput hinput,
    hfails _ (hfront "x 1" _ hcomma) (.standardInput hinput)⟩
  rw [hsame _ (.file (by decide) hfile) ⟨.bytes .empty, fun _ => .bytes .empty⟩]
  decide +kernel

end PrefixCode.Command
