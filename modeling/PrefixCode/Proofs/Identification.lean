/-
# What the printed code tells of the lengths

The printed code has one line for each symbol with a codeword (`linesFor_codesText`), and the length
stands in its second column.  So the lengths can be read off the output, up to symbols without
codewords at the end of the alphabet (`getD_relist`), and they can be written down as a listing
again (`parse_written`).  A code does not depend on those symbols, nor on the limits under which it
has been accepted, so the outputs of two runs are the same exactly if their lengths are.
-/
import PrefixCode.Proofs.Enumeration
import PrefixCode.Proofs.Grammar
import PrefixCode.Proofs.Outcome
import PrefixCode.Proofs.Rearrangement

namespace PrefixCode

open PrefixCode.Lengths

/-! ### Lengths that differ in trailing zeros -/

section Congr

variable {limits : Limits} {a b : List UInt8} {A : Table}

/-- Lists that give every symbol the same length are rearranged into each other. -/
lemma Lengths.rearranged_of_bitsOf_eq (h : bitsOf a = bitsOf b) : Rearranged a b := by
  refine List.perm_iff_count.2 fun l => ?_
  by_cases hl : l = 0
  · rw [hl, List.count_eq_zero.2 (by simp), List.count_eq_zero.2 (by simp)]
  · rw [List.count_filter (by simpa using hl), List.count_filter (by simpa using hl),
      ← card_ofLength a hl, ← card_ofLength b hl, ofLength_congr h]

/-- The table of a list is that of any other one which gives every symbol the same length. -/
lemma Table.ofLengths_congr (hA : ofLengths limits a = .ok A) (h : bitsOf a = bitsOf b)
    (hb : b.length ≤ maxSymbols) : ofLengths limits b = .ok A := by
  obtain ⟨layout, hlayout, rfl⟩ := Except.map_eq_ok_iff.1 hA
  have hadmits := Layout.admits_of_ofLengths hlayout
  have hlayout' : Layout.ofLengths limits b = .ok layout := by
    rw [← Layout.ofLengths_eq_of_rearranged (rearranged_of_bitsOf_eq h) hadmits.length_le hb
      hadmits.maxBits_le, hlayout]
  refine Except.map_eq_ok_iff.2 ⟨layout, hlayout', ?_⟩
  exact (ofLayout_congr (Layout.describes_of_ofLengths hlayout)
    (Layout.describes_of_ofLengths hlayout') h).symm

end Congr

/-! ### Writing a listing -/

namespace Listing

open PrefixCode.Text

/-- A listing of these lengths, with an item for each of them. -/
def written (lengths : List UInt8) : String :=
  ",".intercalate (lengths.map fun l => decimal l.toNat)

/-- A digit separates nothing. -/
lemma isSeparator_of_isDigit {c : Char} (h : c.isDigit = true) : isSeparator c = false := by
  obtain ⟨hge, hle⟩ : 48 ≤ c.toNat ∧ c.toNat ≤ 57 := Char.isDigit_iff_toNat.1 h
  have hranges : ∀ range ∈ blanks, range.2 < 48 ∨ 57 < range.1 := by decide
  rw [← Bool.not_eq_true, isSeparator, Bool.or_eq_true, beq_iff_eq, isBlank, inRanges_eq_true_iff]
  rintro (rfl | ⟨range, hrange, hlo, hhi⟩)
  · cases h
  · have := hranges range hrange
    omega

/-- Items with a comma between them are the items of the text. -/
lemma splits_intercalate {words : List (List Char)}
    (h : ∀ word ∈ words, word ≠ [] ∧ ∀ c ∈ word, isSeparator c = false) :
    Splits ([','].intercalate words) words := by
  induction words with
  | nil => exact .nil
  | cons word words ih =>
    obtain ⟨⟨hne, hword⟩, hwords⟩ := List.forall_mem_cons.1 h
    cases words with
    | nil =>
      have hlast : Splits (word ++ []) [word] := .run hne hword nofun .nil
      rw [List.append_nil] at hlast
      rw [List.intercalate_singleton]
      exact hlast
    | cons next words =>
      rw [List.intercalate_cons_cons, List.append_assoc]
      exact .run hne hword (by simp [isSeparator]) (.separator (by decide) (ih hwords))

lemma says_decimal (l : UInt8) : Says (decimal l.toNat).toList ⟨l, 1⟩ := by
  have h := Says.length (natural?_eq_some_iff.1 (natural?_decimal l.toNat))
    (Nat.le_of_lt_succ l.toNat_lt)
  rwa [Nat.toUInt8_eq, UInt8.ofNat_toNat] at h

lemma expand_map_one (lengths : List UInt8) :
    expand (lengths.map fun l => ⟨l, 1⟩) = lengths := by
  induction lengths with
  | nil => rfl
  | cons l lengths ih => simp [ih]

lemma splits_written (lengths : List UInt8) :
    Splits (written lengths).toList (lengths.map fun l => (decimal l.toNat).toList) := by
  rw [written, String.toList_intercalate, List.map_map]
  refine splits_intercalate (List.forall_mem_map.2 fun l _ =>
    ⟨toList_decimal_ne_nil _, fun c hc => isSeparator_of_isDigit ?_⟩)
  by_contra hdigit
  exact not_mem_decimal (Bool.eq_false_of_not_eq_true hdigit) _ hc

/-- What is written is read back. -/
theorem parse_written {lengths : List UInt8} (h : lengths.length ≤ 65536) :
    parse (written lengths) = .ok lengths := by
  have htotal := length_expand (lengths.map fun l => ⟨l, 1⟩)
  rw [expand_map_one] at htotal
  have hsays : List.Forall₂ Says (lengths.map fun l => (decimal l.toNat).toList)
      (lengths.map fun l => ⟨l, 1⟩) := by
    rw [List.forall₂_map_left_iff, List.forall₂_map_right_iff]
    exact List.forall₂_same.2 fun l _ => says_decimal l
  refine Except.map_eq_ok_iff.2 ⟨lengths.toArray, ?_, rfl⟩
  rw [(splits_written lengths).items_eq]
  refine (foldlM_addItem_eq_ok_iff (Nat.zero_le _)).2 ⟨_, hsays, ?_, ?_⟩
  · rw [← htotal]
    simpa using h
  · simp [expand_map_one]

end Listing

namespace Command

open PrefixCode.Text

variable {inputs : Inputs} {limits : Limits} {source : Source} {verbose : Bool}
  {lengths : List UInt8} {table : Table} {code : Codeword} {symbol : UInt16} {s n : Nat}
  {output : String}

/-! ### The lines for a symbol -/

/-- The lines of the output that begin with the numeral of this symbol, in the first column. -/
def linesFor (output : String) (s : Nat) : List (List Char) :=
  (lines output).filter fun line => (columns line).head? = some (decimal s).toList

lemma head?_columns_row_iff :
    (columns (row symbol code)).head? = some (decimal s).toList ↔ symbol.toNat = s := by
  rw [columns_row, List.head?_cons, Option.some.injEq]
  exact ⟨decimal_injective, fun h => h ▸ rfl⟩

/-- The lines for a symbol are those of its entries in the list of codewords. -/
lemma linesFor_codesText_eq_map (table : Table) (s : Nat) : linesFor (codesText table) s =
    (table.codes.filter fun entry => entry.1.toNat = s).map fun entry => row entry.1 entry.2 := by
  have hend : ¬ (columns []).head? = some (decimal s).toList := by
    have hcolumns : columns [] = [[]] := rfl
    rw [hcolumns, List.head?_cons, Option.some.injEq]
    exact (toList_decimal_ne_nil s).symm
  rw [linesFor, lines_codesText, List.filter_append, List.filter_map,
    List.filter_cons_of_neg (by simpa using hend), List.filter_nil, List.append_nil]
  simp only [Function.comp_def, head?_columns_row_iff]

/-- There is one line for a symbol that has a codeword. -/
lemma linesFor_codesText (htable : Table.ofLengths limits lengths = .ok table)
    (hcode : IsCanonical lengths s code) :
    linesFor (codesText table) s = [row s.toUInt16 code] := by
  rw [linesFor_codesText_eq_map, Table.filter_codes htable hcode, List.map_singleton]

/-- The line shows the length of the symbol, and a word of so many binary digits. -/
theorem exists_linesFor_codesText (htable : Table.ofLengths limits lengths = .ok table)
    {l : UInt8} (hl : lengths[s]? = some l) (hne : l ≠ 0) :
    ∃ line word, linesFor (codesText table) s = [line] ∧
      columns line = [(decimal s).toList, (decimal l.toNat).toList, word] ∧
      word.length = l.toNat ∧ ∀ c ∈ word, c = '0' ∨ c = '1' := by
  have hreal := (Table.decodes_of_ofLengths htable).realizable
  obtain ⟨code, hcode⟩ := exists_isCanonical hreal (mem_active_iff_getElem?.2 ⟨l, hl, hne⟩)
  have hlength : code.length.toNat = l.toNat := hcode.toNat_length.trans (bitsOf_eq hl)
  refine ⟨_, code.text.toList, linesFor_codesText htable hcode, ?_, ?_, ?_⟩
  · rw [columns_row, hcode.toNat_toUInt16 hreal, hlength]
  · rw [hcode.toList_text hreal, List.length_map, Codeword.length_bits, hlength]
  · rw [hcode.toList_text hreal]
    exact List.forall_mem_map.2 fun b _ => digit_eq_zero_or_one b

/-- There is none for a symbol that has no codeword. -/
lemma linesFor_codesText_eq_nil (htable : Table.ofLengths limits lengths = .ok table)
    (hs : s ∉ active lengths) : linesFor (codesText table) s = [] := by
  rw [linesFor_codesText_eq_map, Table.filter_codes_eq_nil htable hs, List.map_nil]

/-- The symbols that have a line are those that have a codeword. -/
lemma linesFor_codesText_ne_nil_iff (htable : Table.ofLengths limits lengths = .ok table) :
    linesFor (codesText table) s ≠ [] ↔ s ∈ active lengths := by
  refine ⟨fun h => not_not.1 fun hs => h (linesFor_codesText_eq_nil htable hs), fun hs => ?_⟩
  obtain ⟨code, hcode⟩ := exists_isCanonical (Table.decodes_of_ofLengths htable).realizable hs
  rw [linesFor_codesText htable hcode]
  exact List.cons_ne_nil _ _

/-! ### Reading lengths off -/

/-- The number in the second column of the line for a symbol, zero if there is no such line. -/
def lengthIn (output : String) (s : Nat) : UInt8 :=
  let column := (linesFor output s).head?.bind fun line => (columns line)[1]?
  ((column.bind natural?).getD 0).toUInt8

/-- The lengths of the first `n` symbols, as they are shown. -/
def relist (n : Nat) (output : String) : List UInt8 :=
  (List.range n).map (lengthIn output)

lemma length_relist (n : Nat) (output : String) : (relist n output).length = n := by
  rw [relist, List.length_map, List.length_range]

/-- The length that is shown for a symbol is its length. -/
lemma lengthIn_codesText (htable : Table.ofLengths limits lengths = .ok table) (s : Nat) :
    lengthIn (codesText table) s = lengths.getD s 0 := by
  by_cases hs : s ∈ active lengths
  · have hreal := (Table.decodes_of_ofLengths htable).realizable
    obtain ⟨code, hcode⟩ := exists_isCanonical hreal hs
    have hlength : code.length = lengths.getD s 0 := UInt8.toNat_inj.1 hcode.toNat_length
    rw [lengthIn, linesFor_codesText htable hcode, List.head?_cons, Option.bind_some, columns_row]
    simp [natural?_decimal, hlength]
  · rw [lengthIn, linesFor_codesText_eq_nil htable hs]
    exact (not_mem_active_iff.1 hs).symm

/-- The lengths that are read off are those of the symbols. -/
theorem getD_relist (htable : Table.ofLengths limits lengths = .ok table)
    (hn : ∀ s ∈ active lengths, s < n) (s : Nat) :
    (relist n (codesText table)).getD s 0 = lengths.getD s 0 := by
  have hlength := lengthIn_codesText htable s
  rw [relist, List.getD_eq_getElem?_getD, List.getElem?_map]
  by_cases hs : s < n
  · rw [List.getElem?_range hs, Option.map_some, Option.getD_some, hlength]
  -- symbols that are not read off have no codeword
  · have hnone : (List.range n)[s]? = none := List.getElem?_eq_none (by simpa using hs)
    have hinactive : s ∉ active lengths := fun hmem => hs (hn s hmem)
    rw [← hlength, lengthIn, linesFor_codesText_eq_nil htable hinactive, hnone]
    rfl

/-! ### Two runs -/

/-- A run that prints the code has a table for the lengths that its source lists. -/
lemma exists_table_of_outputs (hlists : source.Lists inputs lengths)
    (hrun : Invocation.Outputs inputs ⟨limits, verbose, source, .codes⟩ output) :
    ∃ table, Table.ofLengths limits lengths = .ok table ∧ codesText table = output := by
  obtain ⟨lengths', table, hlengths, htable, houtput⟩ := outputs_codes_iff.1 hrun
  cases (Source.lists_iff.1 hlists).symm.trans hlengths
  exact ⟨table, htable, houtput⟩

/-- **The printed code identifies the lengths.**  Let a run print the code of some lengths.  Any
other run that prints a code has the same output exactly if its lengths give every symbol the same
length, where a list that is shorter goes on with zeros.  There is exactly one line for each symbol
with a length other than zero, with this length and a word of so many binary digits, and none for
the other symbols.  If the lengths are read off again, up to any number of symbols that includes
those with a line, they can be listed, and from whatever source they are taken then, the code that
is printed under the same limits is the same. -/
theorem printed_code_identifies_lengths (hlists : source.Lists inputs lengths)
    (hrun : Invocation.Outputs inputs ⟨limits, verbose, source, .codes⟩ output) :
    (∀ inputs' limits' verbose' source' lengths' output', source'.Lists inputs' lengths' →
      Invocation.Outputs inputs' ⟨limits', verbose', source', .codes⟩ output' →
      (output = output' ↔ ∀ s, lengths.getD s 0 = lengths'.getD s 0)) ∧
    (∀ s l, lengths[s]? = some l → l ≠ 0 → ∃ line word, linesFor output s = [line] ∧
      columns line = [(decimal s).toList, (decimal l.toNat).toList, word] ∧
      word.length = l.toNat ∧ ∀ c ∈ word, c = '0' ∨ c = '1') ∧
    (∀ s, lengths.getD s 0 = 0 → linesFor output s = []) ∧
    (∀ s, linesFor output s ≠ [] → s < 65536) ∧
    ∀ n ≤ 65536, (∀ s, linesFor output s ≠ [] → s < n) →
      Listing.parse (Listing.written (relist n output)) = .ok (relist n output) ∧
      ∀ inputs' verbose' source', source'.Lists inputs' (relist n output) →
        Invocation.Outputs inputs' ⟨limits, verbose', source', .codes⟩ output := by
  obtain ⟨table, htable, rfl⟩ := exists_table_of_outputs hlists hrun
  have hreal := (Table.decodes_of_ofLengths htable).realizable
  have hlines {s : Nat} : linesFor (codesText table) s ≠ [] ↔ s ∈ active lengths :=
    linesFor_codesText_ne_nil_iff htable
  refine ⟨fun inputs' limits' verbose' source' lengths' output' hlists' hrun' => ?_,
    fun s l hl hne => exists_linesFor_codesText htable hl hne,
    fun s hs => linesFor_codesText_eq_nil htable (not_mem_active_iff.2 hs),
    fun s hs => (lt_length_of_mem_active (hlines.1 hs)).trans_le hreal.length_le,
    fun n hn hcover => ⟨Listing.parse_written ((length_relist n _).trans_le hn),
      fun inputs' verbose' source' hlists' => ?_⟩⟩
  · obtain ⟨table', htable', rfl⟩ := exists_table_of_outputs hlists' hrun'
    constructor
    · intro h s
      rw [← lengthIn_codesText htable, ← lengthIn_codesText htable', h]
    · intro h
      rw [Table.eq_of_bitsOf_eq htable htable' (bitsOf_eq_iff.2 h)]
  · have hsame := getD_relist htable fun s hs => hcover s (hlines.2 hs)
    have htable' := Table.ofLengths_congr htable (bitsOf_eq_iff.2 fun s => (hsame s).symm)
      ((length_relist n _).trans_le hn)
    exact outputs_codes_iff.2 ⟨_, table, Source.lists_iff.1 hlists', htable', rfl⟩

/-- The printed code of the lengths 2, 1, 0, 3 and 3 shows them; no symbol is shown that has none,
and it makes no difference whether more of those are listed. -/
theorem printed_code_shows_five_lengths : ∃ output,
    Invocation.Outputs ⟨.bytes .empty, fun _ => .bytes .empty⟩
      ⟨.deflate, false, .listing "2,1,0,3,3", .codes⟩ output ∧
    (∃ line word, linesFor output 3 = [line] ∧ columns line = [['3'], ['3'], word] ∧
      word.length = 3) ∧
    linesFor output 2 = [] ∧
    (∀ inputs output', Invocation.Outputs inputs
      ⟨.widest, true, .listing "2 1 0 3*2 0", .codes⟩ output' → output' = output) ∧
    relist 5 output = [2, 1, 0, 3, 3] ∧
    Invocation.Outputs ⟨.bytes "+2 1 0 3*2".toUTF8, fun _ => .bytes .empty⟩
      ⟨.deflate, true, .standardInput, .codes⟩ output := by
  have hrun : Invocation.Outputs ⟨.bytes .empty, fun _ => .bytes .empty⟩
      ⟨.deflate, false, .listing "2,1,0,3,3", .codes⟩
      "1\t1\t0\n0\t2\t10\n3\t3\t110\n4\t3\t111\n" := ⟨"", by decide +kernel⟩
  have hlengths : Listing.parse "2,1,0,3,3" = .ok [2, 1, 0, 3, 3] := by decide +kernel
  have hlengths' : Listing.parse "2 1 0 3*2 0" = .ok [2, 1, 0, 3, 3, 0] := by decide +kernel
  have hlengths'' : Listing.parse "+2 1 0 3*2" = .ok [2, 1, 0, 3, 3] := by decide +kernel
  have hsame : ∀ s, ([2, 1, 0, 3, 3] : List UInt8).getD s 0 =
      ([2, 1, 0, 3, 3, 0] : List UInt8).getD s 0 := by
    intro s
    match s with
    | 0 | 1 | 2 | 3 | 4 | 5 | _ + 6 => rfl
  have hrelist : relist 5 "1\t1\t0\n0\t2\t10\n3\t3\t110\n4\t3\t111\n" = [2, 1, 0, 3, 3] := by
    decide +kernel
  obtain ⟨hother, hline, hnone, -, hagain⟩ := printed_code_identifies_lengths (.listing hlengths)
    hrun
  obtain ⟨line, word, hlines, hcolumns, hlength, -⟩ := hline 3 3 rfl (by decide)
  refine ⟨_, hrun, ⟨line, word, hlines, hcolumns, hlength⟩, hnone 2 rfl,
    fun inputs output' hrun' => ?_, hrelist, ?_⟩
  · exact ((hother inputs _ _ _ _ _ (.listing hlengths') hrun').2 hsame).symm
  · have hcover : ∀ s, linesFor "1\t1\t0\n0\t2\t10\n3\t3\t110\n4\t3\t111\n" s ≠ [] → s < 5 := by
      intro s hs
      by_contra hge
      exact hs (hnone s (List.getD_eq_default _ _ (Nat.not_lt.1 hge)))
    refine (hagain 5 (by decide) hcover).2 _ _ _ (.standardInput rfl ?_)
    rw [hrelist]
    exact hlengths''

end Command

end PrefixCode
