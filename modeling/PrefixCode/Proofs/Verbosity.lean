/-
# What a verbose run says more

Asked to be verbose, the command reports on the table when it has one, and on what it has decoded
when that has succeeded.  Both reports are made of figures, and these can be told from the lengths
and from the reply alone: the report on the table from the lengths of the symbols (`Reports`), the
other one from the message that is printed and the bits of the text (`Action.Closes`).  Nothing else
in a reply depends on verbosity.
-/
import PrefixCode.Proofs.Outcome
import PrefixCode.Proofs.Statistics

namespace PrefixCode

/-! ### Counting bits -/

namespace Text

/-- Filler adds no bits to a word. -/
lemma Filled.countP_eq {word text : List Char} (h : Filled word text)
    (hword : ∀ c ∈ word, c = '0' ∨ c = '1') :
    text.countP (fun c => c = '0' ∨ c = '1') = word.length := by
  induction h with
  | nil => rfl
  | keep c h ih =>
    obtain ⟨hc, hword⟩ := List.forall_mem_cons.1 hword
    rw [List.countP_cons_of_pos (by simpa using hc), ih hword, List.length_cons]
  | @fill c hfill word text h ih =>
    have hc : ¬ (c = '0' ∨ c = '1') := by
      rintro (rfl | rfl) <;> exact absurd hfill (by decide)
    rw [List.countP_cons_of_neg (by simpa using hc), ih hword]

/-- A text has as many bits as characters that are the digits 0 and 1. -/
lemma Filled.countP_eq_length {bs : List Bool} {text : List Char}
    (h : Filled (bs.map digit) text) :
    text.countP (fun c => c = '0' ∨ c = '1') = bs.length := by
  rw [h.countP_eq (List.forall_mem_map.2 fun b _ => digit_eq_zero_or_one b), List.length_map]

end Text

namespace Command

open PrefixCode.Lengths PrefixCode.Text

variable {inputs : Inputs} {invocation : Invocation} {action : Action} {limits : Limits}
  {lengths : List UInt8} {table : Table} {report closing : String}

/-! ### The report on the table -/

/-- The report on the code of these lengths: how many symbols there are, how many of them have a
codeword, what the least and the greatest length of one is, and whether the codewords use up the
bit strings of the greatest length. -/
def Reports (lengths : List UInt8) (report : String) : Prop :=
  ∃ least greatest : UInt8, IsLeast {l | l ∈ lengths ∧ l ≠ 0} least ∧
    IsGreatest {l | l ∈ lengths ∧ l ≠ 0} greatest ∧
    report = "Table:\n"
      ++ "  Alphabet size:    " ++ decimal lengths.length ++ "\n"
      ++ "  Active symbols:   " ++ decimal (lengths.filter (· ≠ 0)).length ++ "\n"
      ++ "  Code lengths:     " ++ decimal least.toNat ++ "-" ++ decimal greatest.toNat ++ "\n"
      ++ "  Complete:         "
      ++ (if kraft lengths greatest.toNat = 2 ^ greatest.toNat then "yes" else "no") ++ "\n"

/-- What is reported about a table is the report on its code. -/
theorem reports_tableReport (htable : Table.ofLengths limits lengths = .ok table) :
    Reports lengths (tableReport lengths.length table) := by
  refine ⟨table.shortest, table.longest, Table.isLeast_shortest htable,
    Table.isGreatest_longest htable, ?_⟩
  have hmax := (Table.decodes_of_ofLengths htable).toNat_longest
  have hcomplete : (if table.complete then "yes" else "no") =
      if kraft lengths table.longest.toNat = 2 ^ table.longest.toNat then "yes" else "no" := by
    rw [hmax]
    exact ite_congr (propext (Table.complete_iff_kraft_eq htable)) (fun _ => rfl) fun _ => rfl
  unfold tableReport
  rw [Table.size_eq htable, hcomplete]

/-! ### The report on decoding -/

/-- What a verbose run says after all else, given the reply without it: if the action is to decode,
and that has succeeded, the number of symbols that are printed, and the number of bits of the text,
which are as many as the codewords of those symbols have. -/
inductive Action.Closes (lengths : List UInt8) (reply : Reply) : Action → String → Prop
  | decoded {text : String} {m : List Nat} {n : Nat} (hstatus : reply.status = 0)
      (houtput : reply.output = messageLine m)
      (htext : text.toList.countP (fun c => c = '0' ∨ c = '1') = n)
      (hbits : (m.map (bitsOf lengths)).sum = n) :
      Closes lengths reply (.decode text)
        ("Decoded " ++ decimal m.length ++ " symbols from " ++ decimal n ++ " bits\n")
  | failed {text : String} (hstatus : reply.status ≠ 0) : Closes lengths reply (.decode text) ""
  | codes : Closes lengths reply .codes ""

/-- A run that has decoded some text closes with the report on it. -/
lemma Action.closes_of_decodes (htable : Table.ofLengths limits lengths = .ok table)
    {text : String} {bs : List Bool} {message : List UInt16}
    (hbits : Filled (bs.map digit) text.toList) (h : table.decodeAll bs = .ok message) :
    Action.Closes lengths (Action.run table false "" (.decode text)) (.decode text)
      (decodeReport message.length bs.length) := by
  obtain ⟨book, hbook⟩ := Table.exists_codebook htable
  have hencode := (Table.decodeAll_eq_ok_iff (Table.decodes_of_ofLengths htable) hbook).1 h
  have hsum : ((message.map UInt16.toNat).map (bitsOf lengths)).sum = bs.length := by
    rw [Codebook.length_eq_of_encode?_eq_some hbook hencode, List.map_map]
    rfl
  have hlength : message.length = (message.map UInt16.toNat).length := by rw [List.length_map]
  rw [run_of_decodes hbits h, hlength]
  exact .decoded rfl (symbolsText_eq_messageLine message) hbits.countP_eq_length hsum

/-- With a table, a verbose reply has its report in front of the errors, and what it closes with
after them. -/
theorem Action.exists_closes (htable : Table.ofLengths limits lengths = .ok table)
    (action : Action) (report : String) :
    ∃ closing, action.Closes lengths (action.run table false "") closing ∧
      action.run table true report = ⟨(action.run table false "").status,
        (action.run table false "").output,
        report ++ (action.run table false "").errors ++ closing⟩ := by
  rcases action.cases table with hok | ⟨error, herror⟩ | ⟨text, c, rfl, hc⟩
  · cases hok with
    | codes =>
      refine ⟨"", .codes, ?_⟩
      simp [Action.run]
    | decode hbits h =>
      refine ⟨_, closes_of_decodes htable hbits h, ?_⟩
      rw [run_of_decodes hbits h, run_of_decodes hbits h]
      simp
  · obtain ⟨hbits, h⟩ := id herror
    rw [run_of_failsToDecode herror, run_of_failsToDecode herror]
    refine ⟨"", .failed (Failure.undecodable error).status_ne_zero, ?_⟩
    simp [Failure.reply, String.append_assoc]
  · rw [run_of_notBit hc, run_of_notBit hc]
    refine ⟨"", .failed (Failure.notBit c).status_ne_zero, ?_⟩
    simp [Failure.reply, String.append_assoc]

/-! ### The two runs of an invocation -/

/-- **Verbosity does not interfere.**  Whether an invocation is verbose makes no difference to its
exit status and its output.  If it has no table, it makes none to what it says on standard error;
and if it has one, a verbose run says the same as the other one, with the report on the table in
front, and with the report on decoding after it if a text has been decoded. -/
theorem verbosity_does_not_interfere (inputs : Inputs) (invocation : Invocation) :
    let quiet := Invocation.run inputs { invocation with verbose := false }
    let verbose := Invocation.run inputs { invocation with verbose := true }
    verbose.status = quiet.status ∧ verbose.output = quiet.output ∧
    ((∃ lengths table report closing, invocation.Builds inputs lengths table ∧
        Reports lengths report ∧ invocation.action.Closes lengths quiet closing ∧
        verbose.errors = report ++ quiet.errors ++ closing) ∨
      ((∀ lengths table, ¬ invocation.Builds inputs lengths table) ∧ quiet.status ≠ 0 ∧
        verbose.errors = quiet.errors)) := by
  intro quiet verbose
  by_cases hbuilds : ∃ lengths table, invocation.Builds inputs lengths table
  · obtain ⟨lengths, table, hbuilds⟩ := hbuilds
    have hquiet : quiet = invocation.action.run table false "" :=
      (hbuilds.update invocation.action false).run_eq
    have hverbose : verbose =
        invocation.action.run table true (tableReport lengths.length table) :=
      (hbuilds.update invocation.action true).run_eq
    obtain ⟨closing, hcloses, hrun⟩ := Action.exists_closes hbuilds.ofLengths_eq
      invocation.action (tableReport lengths.length table)
    rw [← hquiet] at hcloses
    rw [← hquiet, ← hverbose] at hrun
    rw [hrun]
    exact ⟨rfl, rfl, Or.inl ⟨lengths, table, _, closing, hbuilds,
      reports_tableReport hbuilds.ofLengths_eq, hcloses, rfl⟩⟩
  · simp only [not_exists] at hbuilds
    obtain ⟨failure, hstatus, hrun⟩ := Invocation.exists_run_eq hbuilds
    have hsame : verbose = quiet :=
      (hrun invocation.action true).trans (hrun invocation.action false).symm
    have hquiet : quiet = failure.reply "" := hrun invocation.action false
    rw [hsame, hquiet]
    exact ⟨rfl, rfl, Or.inr ⟨hbuilds, failure.status_ne_zero, rfl⟩⟩

/-- Decoding the bits `110010` prints the symbols 3, 1 and 0, and a verbose run says so after the
report on the code. -/
theorem verbose_run_of_three_symbols : ∃ report, Reports [2, 1, 0, 3, 3] report ∧
    Invocation.run ⟨.bytes .empty, fun _ => .bytes .empty⟩
        ⟨.deflate, false, .listing "2,1,0,3,3", .decode "11_00 10"⟩ = ⟨0, "3 1 0\n", ""⟩ ∧
    (Invocation.run ⟨.bytes .empty, fun _ => .bytes .empty⟩
        ⟨.deflate, true, .listing "2,1,0,3,3", .decode "11_00 10"⟩).errors =
      report ++ "Decoded 3 symbols from 6 bits\n" := by
  have hquiet : Invocation.run ⟨.bytes .empty, fun _ => .bytes .empty⟩
      ⟨.deflate, false, .listing "2,1,0,3,3", .decode "11_00 10"⟩ = ⟨0, "3 1 0\n", ""⟩ := by
    decide +kernel
  have hlengths : Listing.parse "2,1,0,3,3" = .ok [2, 1, 0, 3, 3] := by decide +kernel
  have hmessage : messageLine [3, 1, 0] = "3 1 0\n" := by decide +kernel
  have hcount : "11_00 10".toList.countP (fun c => c = '0' ∨ c = '1') = 6 := by decide +kernel
  have hline : "" ++ ("Decoded " ++ decimal 3 ++ " symbols from " ++ decimal 6 ++ " bits\n") =
      "Decoded 3 symbols from 6 bits\n" := by decide +kernel
  obtain ⟨-, -, hways⟩ := verbosity_does_not_interfere ⟨.bytes .empty, fun _ => .bytes .empty⟩
    ⟨.deflate, false, .listing "2,1,0,3,3", .decode "11_00 10"⟩
  rw [hquiet] at hways
  rcases hways with ⟨lengths, table, report, closing, ⟨hlists, -⟩, hreports, hcloses, herrors⟩ |
    ⟨-, hfailed, -⟩
  · cases hlists with
    | listing h =>
      cases hlengths.symm.trans h
      cases hcloses with
      | failed hfailed => exact absurd rfl hfailed
      | decoded _ houtput htext _ =>
        obtain rfl := messageLine_injective (hmessage.trans houtput)
        obtain rfl := hcount.symm.trans htext
        rw [String.append_assoc] at herrors
        exact ⟨report, hreports, hquiet, herrors.trans (congrArg (report ++ ·) hline)⟩
  · exact absurd rfl hfailed

end Command

end PrefixCode
