/-
# The printed code

The command prints a line for each codeword, with the symbol, the length and the word of digits in
three columns, and it reads such words back when it decodes.  Numerals and words consist of digits,
so the columns can be told apart, and the lines (`columns_row`, `lines_codesText`): what stands in a
line is the spelling of a symbol (`prints_iff_spells`), and the words of a message, one after the
other, are the digits of its bits.  Decoding a text that is filled up with white space and
underscores begins with those bits, and encoding and decoding undo each other.
-/
import PrefixCode.Command.Run
import PrefixCode.Proofs.BitText
import PrefixCode.Proofs.Observation

namespace PrefixCode

/-! ### Lines and columns -/

namespace Text

/-- The lines of a text; what follows the last line break counts as one. -/
def lines (text : String) : List (List Char) :=
  text.toList.splitOn '\n'

/-- The columns of a line. -/
def columns (line : List Char) : List (List Char) :=
  line.splitOn '\t'

/-- A numeral consists of digits. -/
lemma not_mem_decimal {c : Char} (hc : c.isDigit = false) (n : Nat) :
    c ∉ (decimal n).toList := by
  intro h
  rw [decimal, String.toList_ofList] at h
  rw [Nat.isDigit_of_mem_toDigits (by decide) (by decide) h] at hc
  cases hc

lemma toList_decimal_ne_nil (n : Nat) : (decimal n).toList ≠ [] := by
  simp [decimal]

lemma decimal_injective {m n : Nat} (h : (decimal m).toList = (decimal n).toList) : m = n := by
  rw [← Option.some.injEq, ← natural?_decimal m, h, natural?_decimal]

end Text

/-- The text of a codeword consists of digits. -/
lemma Codeword.not_mem_text {c : Char} (hc : c.isDigit = false) (code : Codeword) :
    c ∉ code.text.toList := by
  intro h
  rw [text, String.toList_ofList, List.leftpad, List.mem_append, List.mem_replicate] at h
  rcases h with ⟨-, rfl⟩ | h
  · cases hc
  · rw [Nat.isDigit_of_mem_toDigits (by decide) (by decide) h] at hc
    cases hc

/-- The codeword of a symbol is printed as the word of its bits. -/
lemma IsCanonical.toList_text {lengths : List UInt8} {s : Nat} {code : Codeword}
    (h : IsCanonical lengths s code) (hreal : Lengths.Realizable lengths) :
    code.text.toList = code.bits.map Text.digit := by
  have hne : code.bits ≠ [] := Spells.ne_nil ⟨code, h, rfl⟩
  have hpos := List.length_pos_iff.2 hne
  rw [Codeword.length_bits] at hpos
  exact Codeword.toList_text (h.fits hreal) hpos

namespace Command

open PrefixCode.Lengths PrefixCode.Text

variable {limits : Limits} {lengths : List UInt8} {table : Table} {book : Codebook}
  {symbol : UInt16} {code : Codeword} {s : Nat} {w : List Char}

/-- The line of the output for a symbol has this numeral for it in the first column and the word
`w` in the third one. -/
def Prints (output : String) (s : Nat) (w : List Char) : Prop :=
  ∃ line ∈ lines output, ∃ length, columns line = [(decimal s).toList, length, w]

/-- A line of the printed code, without its end. -/
def row (symbol : UInt16) (code : Codeword) : List Char :=
  (decimal symbol.toNat).toList ++ '\t' :: ((decimal code.length.toNat).toList ++
    '\t' :: code.text.toList)

lemma toList_codeLine : (codeLine symbol code).toList = row symbol code ++ ['\n'] := by
  simp [codeLine, row]

lemma newline_not_mem_row : '\n' ∉ row symbol code := by
  have hc : '\n'.isDigit = false := rfl
  simp [row, not_mem_decimal hc, Codeword.not_mem_text hc]

/-- The columns of a line are the symbol, the length and the codeword. -/
lemma columns_row : columns (row symbol code) =
    [(decimal symbol.toNat).toList, (decimal code.length.toNat).toList, code.text.toList] := by
  have hc : '\t'.isDigit = false := rfl
  rw [columns, row, List.splitOn_append_cons_self_of_not_mem (not_mem_decimal hc _),
    List.splitOn_append_cons_self_of_not_mem (not_mem_decimal hc _),
    List.splitOn_eq_singleton (Codeword.not_mem_text hc code)]

/-- There is a line for each codeword, and nothing after the last one. -/
theorem lines_codesText (table : Table) :
    lines (codesText table) = (table.codes.map fun entry => row entry.1 entry.2) ++ [[]] := by
  rw [lines, codesText, String.toList_join, List.flatMap_map]
  induction table.codes with
  | nil => rfl
  | cons entry entries ih =>
    rw [List.flatMap_cons, toList_codeLine, List.append_assoc, List.singleton_append,
      List.splitOn_append_cons_self_of_not_mem newline_not_mem_row, ih, List.map_cons,
      List.cons_append]

lemma prints_codesText_iff : Prints (codesText table) s w ↔
    ∃ symbol code, (symbol, code) ∈ table.codes ∧ symbol.toNat = s ∧ code.text.toList = w := by
  rw [Prints, lines_codesText]
  constructor
  · rintro ⟨line, hline, length, hcolumns⟩
    rcases List.mem_append.1 hline with hline | hline
    · obtain ⟨⟨symbol, code⟩, hmem, rfl⟩ := List.mem_map.1 hline
      rw [columns_row, List.cons.injEq, List.cons.injEq, List.cons.injEq] at hcolumns
      obtain ⟨hsymbol, -, hword, -⟩ := hcolumns
      exact ⟨symbol, code, hmem, decimal_injective hsymbol, hword⟩
    -- the end of the text has a single column
    · obtain rfl := List.mem_singleton.1 hline
      have hone : (columns []).length = 1 := rfl
      rw [hcolumns] at hone
      cases hone
  · rintro ⟨symbol, code, hmem, rfl, rfl⟩
    exact ⟨_, List.mem_append_left _ (List.mem_map.2 ⟨_, hmem, rfl⟩), _, columns_row⟩

/-- The word that is printed for a symbol has the bits of its codeword as digits. -/
theorem prints_iff_spells (htable : Table.ofLengths limits lengths = .ok table) :
    Prints (codesText table) s w ↔ ∃ bits, Spells lengths bits s ∧ bits.map digit = w := by
  have h := Table.decodes_of_ofLengths htable
  simp only [prints_codesText_iff, Table.mem_codes_iff htable, h.decode_eq_some_iff]
  constructor
  · rintro ⟨symbol, code, hcode, rfl, rfl⟩
    exact ⟨code.bits, ⟨code, hcode, rfl⟩, (hcode.toList_text h.realizable).symm⟩
  · rintro ⟨_, ⟨code, hcode, rfl⟩, rfl⟩
    have hsymbol := hcode.toNat_toUInt16 h.realizable
    exact ⟨s.toUInt16, code, hsymbol.symm ▸ hcode, hsymbol, hcode.toList_text h.realizable⟩

/-! ### Messages -/

/-- The line of the output for a message. -/
def messageLine (m : List Nat) : String :=
  " ".intercalate (m.map decimal) ++ "\n"

lemma symbolsText_eq_messageLine (message : List UInt16) :
    symbolsText message = messageLine (message.map UInt16.toNat) := by
  rw [symbolsText, messageLine, List.map_map]
  rfl

/-- The numerals of a message are what stands between the blanks. -/
lemma filter_splitOn_numerals (m : List Nat) :
    (([' '].intercalate (m.map fun s => (decimal s).toList)).splitOn ' ').filter (· ≠ []) =
      m.map fun s => (decimal s).toList := by
  cases m with
  | nil => rfl
  | cons s m =>
    rw [List.splitOn_intercalate ' ' _ (by simp), List.filter_eq_self]
    · intro numeral hnumeral
      obtain ⟨r, -, rfl⟩ := List.mem_map.1 hnumeral
      simp [decimal]
    · intro numeral hnumeral
      obtain ⟨r, -, rfl⟩ := List.mem_map.1 hnumeral
      exact not_mem_decimal rfl r

/-- The line of a message shows the message. -/
theorem messageLine_injective : Function.Injective messageLine := by
  intro m m' h
  have hlist {m : List Nat} : (messageLine m).toList =
      [' '].intercalate (m.map fun s => (decimal s).toList) ++ ['\n'] := by
    simp [messageLine, Function.comp_def]
  have hnumerals := congrArg String.toList h
  rw [hlist, hlist, List.append_cancel_right_eq] at hnumerals
  have hmap := congrArg (fun cs => (cs.splitOn ' ').filter (· ≠ [])) hnumerals
  simp only [filter_splitOn_numerals] at hmap
  exact List.map_injective_iff.2 (fun _ _ => decimal_injective) hmap

/-- Words that are printed for symbols are, one after the other, the digits of a message. -/
theorem encode?_of_prints (htable : Table.ofLengths limits lengths = .ok table)
    (hbook : Codebook.ofLengths limits lengths = .ok book) {m : List Nat}
    {words : List (List Char)} (h : List.Forall₂ (Prints (codesText table)) m words) :
    ∃ message bits, message.map UInt16.toNat = m ∧ book.encode? message = some bits ∧
      words.flatten = bits.map digit := by
  have hreal := (Table.decodes_of_ofLengths htable).realizable
  induction h with
  | nil => exact ⟨[], [], rfl, Codebook.encode?_nil book, rfl⟩
  | @cons s w m words hs _ ih =>
    obtain ⟨_, ⟨code, hcode, rfl⟩, rfl⟩ := (prints_iff_spells htable).1 hs
    obtain ⟨message, more, rfl, hmore, hwords⟩ := ih
    have hsymbol := hcode.toNat_toUInt16 hreal
    refine ⟨s.toUInt16 :: message, code.bits ++ more, by rw [List.map_cons, hsymbol],
      (Codebook.encode?_cons_eq_some_iff hbook).2 ?_, ?_⟩
    · exact ⟨code.bits, more, ⟨code, hsymbol.symm ▸ hcode, rfl⟩, hmore, rfl⟩
    · rw [List.flatten_cons, hwords, List.map_append]

/-- The digits of a message are the words that are printed for its symbols. -/
theorem exists_prints_of_encode? (htable : Table.ofLengths limits lengths = .ok table)
    (hbook : Codebook.ofLengths limits lengths = .ok book) {message : List UInt16}
    {bits : List Bool} (h : book.encode? message = some bits) :
    ∃ words, List.Forall₂ (Prints (codesText table)) (message.map UInt16.toNat) words ∧
      words.flatten = bits.map digit := by
  induction message generalizing bits with
  | nil =>
    rw [Codebook.encode?_nil, Option.some.injEq] at h
    subst h
    exact ⟨[], .nil, rfl⟩
  | cons symbol message ih =>
    obtain ⟨begun, more, hbegun, hmore, rfl⟩ := (Codebook.encode?_cons_eq_some_iff hbook).1 h
    obtain ⟨words, hprints, hwords⟩ := ih hmore
    refine ⟨begun.map digit :: words, .cons ?_ hprints, ?_⟩
    · exact (prints_iff_spells htable).2 ⟨begun, hbegun, rfl⟩
    · rw [List.flatten_cons, hwords, List.map_append]

/-! ### Runs that succeed -/

lemma Failure.status_ne_zero (failure : Failure) : failure.status ≠ 0 := by
  cases failure <;> exact nofun

variable {inputs : Inputs} {invocation : Invocation} {verbose : Bool} {source : Source}
  {output text : String}

lemma Invocation.table_eq_ok_iff : invocation.table inputs = .ok (lengths, table) ↔
    invocation.source.lengths inputs = .ok lengths ∧
      Table.ofLengths invocation.limits lengths = .ok table := by
  simp only [Invocation.table, Except.bind_eq_ok_iff, Except.map_eq_ok_iff,
    Except.mapError_eq_ok_iff, Prod.mk.injEq]
  constructor
  · rintro ⟨_, hlengths, _, htable, rfl, rfl⟩
    exact ⟨hlengths, htable⟩
  · rintro ⟨hlengths, htable⟩
    exact ⟨lengths, hlengths, table, htable, rfl, rfl⟩

lemma decodeText_eq_ok_iff {message : List UInt16} {n : Nat} :
    decodeText table text = .ok (message, n) ↔
      ∃ bs, bits text = .ok bs ∧ table.decodeAll bs = .ok message ∧ bs.length = n := by
  simp only [decodeText, Except.bind_eq_ok_iff, Except.map_eq_ok_iff, Except.mapError_eq_ok_iff,
    Prod.mk.injEq]
  constructor
  · rintro ⟨bs, hbits, _, hdecode, rfl, rfl⟩
    exact ⟨bs, hbits, hdecode, rfl⟩
  · rintro ⟨bs, hbits, hdecode, rfl⟩
    exact ⟨bs, hbits, message, hdecode, rfl, rfl⟩

/-- The run succeeds with this output. -/
def Invocation.Outputs (inputs : Inputs) (invocation : Invocation) (output : String) : Prop :=
  ∃ errors, invocation.run inputs = ⟨0, output, errors⟩

/-- A run that succeeds has a table. -/
lemma Invocation.outputs_iff : invocation.Outputs inputs output ↔
    ∃ lengths table, invocation.table inputs = .ok (lengths, table) ∧
      ∃ errors, invocation.action.run table invocation.verbose
        (if invocation.verbose then tableReport lengths.length table else "") =
          ⟨0, output, errors⟩ := by
  rw [Outputs, run]
  cases invocation.table inputs with
  | error failure => simp [Failure.reply, failure.status_ne_zero]
  | ok found =>
    obtain ⟨lengths, table⟩ := found
    simp [and_assoc]

lemma Action.exists_run_decode_iff {report : String} :
    (∃ errors, Action.run table verbose report (.decode text) = ⟨0, output, errors⟩) ↔
      ∃ message n, decodeText table text = .ok (message, n) ∧ symbolsText message = output := by
  rw [Action.run]
  cases decodeText table text with
  | error failure => simp [Failure.reply, failure.status_ne_zero]
  | ok decoded =>
    obtain ⟨message, n⟩ := decoded
    simp [and_assoc]

/-- The code is printed if there is one. -/
theorem outputs_codes_iff :
    Invocation.Outputs inputs ⟨limits, verbose, source, .codes⟩ output ↔
      ∃ lengths table, source.lengths inputs = .ok lengths ∧
        Table.ofLengths limits lengths = .ok table ∧ codesText table = output := by
  simp [Invocation.outputs_iff, Invocation.table_eq_ok_iff, Action.run, and_assoc]

/-- A text is decoded if there is a code, the text has bits, and they decode to a message. -/
theorem outputs_decode_iff :
    Invocation.Outputs inputs ⟨limits, verbose, source, .decode text⟩ output ↔
      ∃ lengths table bs message, source.lengths inputs = .ok lengths ∧
        Table.ofLengths limits lengths = .ok table ∧ bits text = .ok bs ∧
        table.decodeAll bs = .ok message ∧ symbolsText message = output := by
  simp only [Invocation.outputs_iff, Invocation.table_eq_ok_iff, Action.exists_run_decode_iff,
    decodeText_eq_ok_iff]
  constructor
  · rintro ⟨lengths, table, ⟨hlengths, htable⟩, message, _, ⟨bs, hbits, hdecode, rfl⟩, houtput⟩
    exact ⟨lengths, table, bs, message, hlengths, htable, hbits, hdecode, houtput⟩
  · rintro ⟨lengths, table, bs, message, hlengths, htable, hbits, hdecode, houtput⟩
    exact ⟨lengths, table, ⟨hlengths, htable⟩, message, _, ⟨bs, hbits, hdecode, rfl⟩, houtput⟩

/-! ### Decoding what is printed -/

/-- **The command decodes what it prints.**  Let the code of a source be printed.  Each symbol has
one word in it; and if the words of a message are put one after the other and filled up with white
space and underscores in any way, decoding succeeds with the message.  Conversely, if decoding
succeeds, the code is printed as well, and without white space and underscores the text consists of
the words of the message that the output shows. -/
theorem printed_code_decodes (inputs : Inputs) (limits : Limits) (source : Source) :
    (∀ verbose output, Invocation.Outputs inputs ⟨limits, verbose, source, .codes⟩ output →
      (∀ s w w', Prints output s w → Prints output s w' → w = w') ∧
      ∀ m words text verbose', List.Forall₂ (Prints output) m words →
        Filled words.flatten text.toList →
        Invocation.Outputs inputs ⟨limits, verbose', source, .decode text⟩ (messageLine m)) ∧
    ∀ verbose text line,
      Invocation.Outputs inputs ⟨limits, verbose, source, .decode text⟩ line →
      ∀ verbose', ∃ output,
        Invocation.Outputs inputs ⟨limits, verbose', source, .codes⟩ output ∧
        (∃ m, line = messageLine m) ∧
        ∀ m, line = messageLine m → ∃ words, List.Forall₂ (Prints output) m words ∧
          words.flatten = text.toList.filter fun c => !isFiller c := by
  refine ⟨fun verbose output hcodes => ?_, fun verbose text line hdecode verbose' => ?_⟩
  · obtain ⟨lengths, table, hlengths, htable, rfl⟩ := outputs_codes_iff.1 hcodes
    obtain ⟨book, hbook⟩ := Table.exists_codebook htable
    have h := Table.decodes_of_ofLengths htable
    refine ⟨fun s w w' hw hw' => ?_, fun m words text verbose' hprints hfilled => ?_⟩
    · obtain ⟨_, ⟨code, hcode, rfl⟩, rfl⟩ := (prints_iff_spells htable).1 hw
      obtain ⟨_, ⟨code', hcode', rfl⟩, rfl⟩ := (prints_iff_spells htable).1 hw'
      rw [hcode.code_eq hcode']
    · obtain ⟨message, bs, rfl, hencode, hwords⟩ := encode?_of_prints htable hbook hprints
      rw [hwords] at hfilled
      exact outputs_decode_iff.2 ⟨lengths, table, bs, message, hlengths, htable,
        bits_eq_ok_iff_filled.2 hfilled, (Table.decodeAll_eq_ok_iff h hbook).2 hencode,
        symbolsText_eq_messageLine message⟩
  · obtain ⟨lengths, table, bs, message, hlengths, htable, hbits, hmessage, rfl⟩ :=
      outputs_decode_iff.1 hdecode
    obtain ⟨book, hbook⟩ := Table.exists_codebook htable
    have hencode := (Table.decodeAll_eq_ok_iff (Table.decodes_of_ofLengths htable) hbook).1 hmessage
    obtain ⟨words, hprints, hwords⟩ := exists_prints_of_encode? htable hbook hencode
    rw [symbolsText_eq_messageLine]
    refine ⟨_, outputs_codes_iff.2 ⟨lengths, table, hlengths, htable, rfl⟩, ⟨_, rfl⟩,
      fun m hm => ?_⟩
    -- the line shows no other message
    obtain rfl := messageLine_injective hm
    exact ⟨words, hprints, by rw [hwords, bits_eq_ok_iff.1 hbits]⟩

/-- The words `110`, `0` and `10` of three symbols are decoded from a text in which they are
run together and cut elsewhere. -/
theorem printed_code_of_five_symbols :
    Invocation.Outputs ⟨.bytes .empty, fun _ => .bytes .empty⟩
      ⟨.deflate, false, .listing "2,1,0,3,3", .codes⟩
      "1\t1\t0\n0\t2\t10\n3\t3\t110\n4\t3\t111\n" ∧
    Invocation.Outputs ⟨.bytes .empty, fun _ => .bytes .empty⟩
      ⟨.deflate, true, .listing "2,1,0,3,3", .decode " 11_00 10"⟩ "3 1 0\n" := by
  have hcodes : Invocation.Outputs ⟨.bytes .empty, fun _ => .bytes .empty⟩
      ⟨.deflate, false, .listing "2,1,0,3,3", .codes⟩
      "1\t1\t0\n0\t2\t10\n3\t3\t110\n4\t3\t111\n" := ⟨"", by decide +kernel⟩
  obtain ⟨-, hdecode⟩ := (printed_code_decodes _ _ _).1 _ _ hcodes
  have hprints : List.Forall₂ (Prints "1\t1\t0\n0\t2\t10\n3\t3\t110\n4\t3\t111\n") [3, 1, 0]
      [['1', '1', '0'], ['0'], ['1', '0']] := by
    refine .cons ?_ (.cons ?_ (.cons ?_ .nil))
    · exact ⟨"3\t3\t110".toList, by decide +kernel, ['3'], by decide +kernel⟩
    · exact ⟨"1\t1\t0".toList, by decide +kernel, ['1'], by decide +kernel⟩
    · exact ⟨"0\t2\t10".toList, by decide +kernel, ['2'], by decide +kernel⟩
  have hfilled : Filled ([true, true, false, false, true, false].map digit) " 11_00 10".toList :=
    bits_eq_ok_iff_filled.1 (by decide +kernel)
  exact ⟨hcodes, hdecode _ _ _ true hprints hfilled⟩

end Command

end PrefixCode
