/-
# Which bit strings begin with a codeword

Of the strings of `L` bits, ordered as numbers, those that begin with a codeword are the first
`kraft lengths L` ones (`exists_beginsWith_iff`).  This goes from one length to the next: a string
whose last bit may be dropped begins with a shorter codeword, and the codewords of the next length
are consecutive from there on.  So what a code leaves free is one block at the end, and it is free
at the greatest length exactly if the code is incomplete; there the block is as large as reported
when completeness is asked for, and it is what a reader misses.
-/
import PrefixCode.Proofs.Acceptance
import PrefixCode.Proofs.Reader
import PrefixCode.Proofs.Sorting

namespace PrefixCode

/-! ### Codewords at the front of numbers -/

namespace Lengths

variable {lengths : List UInt8} {L v s : Nat}

/-- The string of `L` bits with the number `v` begins with the codeword of `s`: without the bits
after it, the number is the place of `s`. -/
structure BeginsWith (lengths : List UInt8) (L v s : Nat) : Prop where
  active : s ∈ active lengths
  bitsOf_le : bitsOf lengths s ≤ L
  div_eq : v / 2 ^ (L - bitsOf lengths s) = place lengths s

/-- The places of the symbols of one length are consecutive. -/
lemma exists_mem_ofLength_place_eq {k : Nat} (hk : k < (ofLength lengths L).card) :
    ∃ s ∈ ofLength lengths L, place lengths s = below lengths L + k := by
  obtain ⟨s, hs, hrank⟩ := exists_mem_ofLength_rank_eq hk
  have hplace := place_add_shorter lengths s
  rw [(mem_ofLength.1 hs).2] at hplace
  exact ⟨s, hs, by omega⟩

namespace BeginsWith

/-- What begins with a codeword is counted in the Kraft sum. -/
lemma lt_kraft (h : BeginsWith lengths L v s) : v < kraft lengths L := by
  calc v < 2 ^ (L - bitsOf lengths s) * (v / 2 ^ (L - bitsOf lengths s) + 1) :=
        Nat.lt_mul_div_succ v (Nat.two_pow_pos _)
    _ = 2 ^ (L - bitsOf lengths s) * (place lengths s + 1) := by rw [h.div_eq]
    _ ≤ kraft lengths L := two_pow_mul_place_add_one_le h.active h.bitsOf_le

/-- One more bit at the end makes no difference at the front. -/
lemma succ (h : BeginsWith lengths L (v / 2) s) : BeginsWith lengths (L + 1) v s := by
  refine ⟨h.active, h.bitsOf_le.trans (Nat.le_succ L), ?_⟩
  rw [← h.div_eq, Nat.div_div_eq_div_mul, ← Nat.pow_succ', Nat.succ_sub h.bitsOf_le]

end BeginsWith

/-- The strings of `L` bits that begin with a codeword are the first ones. -/
theorem exists_beginsWith_iff (lengths : List UInt8) (L v : Nat) :
    (∃ s, BeginsWith lengths L v s) ↔ v < kraft lengths L := by
  constructor
  · rintro ⟨s, h⟩
    exact h.lt_kraft
  intro hv
  -- along the lengths: a number is below twice the sum before, or in the range of one length
  induction L generalizing v with
  | zero =>
    rw [kraft_zero] at hv
    exact absurd hv (Nat.not_lt_zero v)
  | succ L ih =>
    rw [kraft_eq_below_add, below_succ] at hv
    rcases Nat.lt_or_ge v (2 * kraft lengths L) with hlt | hge
    · obtain ⟨s, h⟩ := ih (v / 2) (by omega)
      exact ⟨s, h.succ⟩
    · have hlt : v - 2 * kraft lengths L < (ofLength lengths (L + 1)).card := by omega
      obtain ⟨s, hs, hplace⟩ := exists_mem_ofLength_place_eq hlt
      obtain ⟨hactive, hbits⟩ := mem_ofLength.1 hs
      refine ⟨s, hactive, hbits.le, ?_⟩
      rw [hplace, below_succ, hbits, Nat.sub_self, Nat.pow_zero, Nat.div_one]
      omega

end Lengths

open PrefixCode.Lengths

variable {limits : Limits} {lengths : List UInt8} {table : Table} {book : Codebook}
  {window : Codeword} {bits rest : List Bool}

/-! ### Codewords at the front of bit strings -/

/-- A codeword is at the front of a bit string as it is at the front of its number. -/
lemma exists_isCanonical_prefix_iff (hreal : Realizable lengths) (hwindow : window.Fits) {s : Nat} :
    (∃ code, IsCanonical lengths s code ∧ code.bits <+: window.bits) ↔
      BeginsWith lengths window.length.toNat window.value.toNat s := by
  constructor
  · rintro ⟨code, hcode, hpre⟩
    obtain ⟨hle, hvalue⟩ := (Codeword.bits_prefix_iff (hcode.fits hreal) hwindow).1 hpre
    rw [Nat.shiftRight_eq_div_pow, hcode.toNat_length, hcode.toNat_value] at hvalue
    exact ⟨hcode.active, hcode.toNat_length.symm.trans_le hle, hvalue⟩
  · intro h
    obtain ⟨code, hcode⟩ := exists_isCanonical hreal h.active
    refine ⟨code, hcode, (Codeword.bits_prefix_iff (hcode.fits hreal) hwindow).2 ⟨?_, ?_⟩⟩
    · rw [hcode.toNat_length]
      exact h.bitsOf_le
    · rw [Nat.shiftRight_eq_div_pow, hcode.toNat_length, hcode.toNat_value]
      exact h.div_eq

/-- Some codeword is at the front of a bit string exactly if its number is among the first. -/
theorem exists_prefix_iff_lt_kraft (hreal : Realizable lengths) (hwindow : window.Fits) :
    (∃ s code, IsCanonical lengths s code ∧ code.bits <+: window.bits) ↔
      window.value.toNat < kraft lengths window.length.toNat := by
  rw [← exists_beginsWith_iff]
  exact exists_congr fun s => exists_isCanonical_prefix_iff hreal hwindow

namespace Table

/-- The codewords in front are those of the canonical code. -/
lemma exists_inFront_iff (h : table.Decodes lengths) :
    (∃ code symbol, table.InFront bits code symbol) ↔
      ∃ s code, IsCanonical lengths s code ∧ code.bits <+: bits := by
  constructor
  · rintro ⟨code, symbol, hdecode, hpre⟩
    exact ⟨symbol.toNat, code, h.decode_eq_some_iff.1 hdecode, hpre⟩
  · rintro ⟨s, code, hcode, hpre⟩
    exact ⟨code, s.toUInt16, h.decode_eq_some hcode, hpre⟩

/-- No bits after the length of the longest codewords count for what is in front. -/
lemma inFront_append_iff (h : table.Decodes lengths) (hle : table.longest.toNat ≤ bits.length)
    {code : Codeword} {symbol : UInt16} :
    table.InFront (bits ++ rest) code symbol ↔ table.InFront bits code symbol := by
  constructor
  · rintro ⟨hdecode, hpre⟩
    have hlength : code.bits.length ≤ bits.length :=
      (h.length_le (h.spells_of_decode hdecode)).trans hle
    exact ⟨hdecode, List.prefix_of_prefix_length_le hpre (List.prefix_append bits rest) hlength⟩
  · rintro ⟨hdecode, hpre⟩
    exact ⟨hdecode, hpre.trans (List.prefix_append bits rest)⟩

/-- Bits that are missed are missed whatever follows them. -/
lemma misses_append_iff (h : table.Decodes lengths) (hle : table.longest.toNat ≤ bits.length) :
    table.Misses (bits ++ rest) ↔ table.Misses bits := by
  have hle' : table.longest.toNat ≤ (bits ++ rest).length :=
    hle.trans (List.prefix_append bits rest).length_le
  simp only [Misses, inFront_append_iff h hle, hle, hle', and_true]

/-- A reader reports bits that are no codeword exactly if it misses. -/
theorem read_eq_noSymbol_iff (h : table.Recognizes lengths) :
    (∃ code left, table.read bits = (.error (.noSymbol code), left)) ↔ table.Misses bits := by
  constructor
  · rintro ⟨code, left, hread⟩
    have hnone := not_inFront_of_read_eq_error h hread
    refine ⟨hnone, Nat.le_of_not_lt fun hlt => ?_⟩
    rw [RunsOut.read_eq h ⟨hnone, hlt⟩] at hread
    cases hread
  · intro hmiss
    obtain ⟨code, -, -, hread⟩ := hmiss.read_eq h
    exact ⟨code, _, hread⟩

/-! ### The free block -/

/-- Bits are missed if their number is not among the first ones that the Kraft sum counts. -/
theorem misses_iff_kraft_le (h : table.Decodes lengths) (hwindow : window.Fits)
    (hlength : window.length = table.longest) (rest : List Bool) :
    table.Misses (window.bits ++ rest) ↔
      kraft lengths (maxBits lengths) ≤ window.value.toNat := by
  have hle : table.longest.toNat ≤ window.bits.length := by
    rw [Codeword.length_bits, hlength]
  have hkraft := exists_prefix_iff_lt_kraft h.realizable hwindow
  rw [hlength, h.toNat_longest, ← exists_inFront_iff h] at hkraft
  rw [misses_append_iff h hle, Misses, and_iff_left hle, ← Nat.not_lt, ← hkraft]
  simp only [not_exists]

/-- Enough bits begin with a word of the greatest length. -/
lemma exists_window (h : table.Decodes lengths) (hle : table.longest.toNat ≤ bits.length) :
    ∃ (window : Codeword) (rest : List Bool), window.Fits ∧ window.length = table.longest ∧
      window.bits ++ rest = bits := by
  have hlength := List.length_take_of_le hle
  have hlong := hlength.trans_le h.longest_le
  refine ⟨.ofBits (bits.take table.longest.toNat), bits.drop table.longest.toNat,
    Codeword.fits_ofBits hlong, h.length_ofBits_eq_longest hlength, ?_⟩
  rw [Codeword.bits_ofBits hlong, List.take_append_drop]

lemma complete_iff_kraft_eq (htable : ofLengths limits lengths = .ok table) :
    table.complete = true ↔ kraft lengths (maxBits lengths) = 2 ^ maxBits lengths := by
  obtain ⟨layout, hlayout, rfl⟩ := Except.map_eq_ok_iff.1 htable
  exact (Layout.describes_of_ofLengths hlayout).complete_iff

/-- An incomplete table misses some bits. -/
lemma exists_misses (htable : ofLengths limits lengths = .ok table)
    (hcomplete : table.complete = false) : ∃ bits, table.Misses bits := by
  have h := decodes_of_ofLengths htable
  have hreal := h.realizable
  have hlt : kraft lengths (maxBits lengths) < 2 ^ maxBits lengths := by
    refine lt_of_le_of_ne hreal.kraft_le fun heq => ?_
    rw [(complete_iff_kraft_eq htable).2 heq] at hcomplete
    cases hcomplete
  -- the least number that the Kraft sum does not count
  have hpow : 2 ^ maxBits lengths ≤ 2 ^ 32 := Nat.pow_le_pow_right Nat.two_pos hreal.maxBits_le
  have hvalue : (UInt32.ofNat (kraft lengths (maxBits lengths))).toNat =
      kraft lengths (maxBits lengths) := by
    rw [UInt32.toNat_ofNat']
    exact Nat.mod_eq_of_lt (by omega)
  have hwindow : Codeword.Fits ⟨UInt32.ofNat (kraft lengths (maxBits lengths)), table.longest⟩ := by
    refine ⟨h.longest_le, ?_⟩
    rw [hvalue, h.toNat_longest]
    exact hlt
  exact ⟨_, (misses_iff_kraft_le h hwindow rfl []).2 hvalue.ge⟩

/-- A table is complete exactly if no bits are missed. -/
theorem complete_iff_not_misses (htable : ofLengths limits lengths = .ok table) :
    table.complete = true ↔ ∀ bits, ¬ table.Misses bits := by
  have h := decodes_of_ofLengths htable
  constructor
  · intro hcomplete bits hmiss
    obtain ⟨window, rest, hwindow, hlength, rfl⟩ := exists_window h hmiss.2
    have hle := (misses_iff_kraft_le h hwindow hlength rest).1 hmiss
    have hlt := hwindow.value_lt
    rw [(complete_iff_kraft_eq htable).1 hcomplete, ← h.toNat_longest, ← hlength] at hle
    exact absurd hlt (Nat.not_lt.2 hle)
  · intro hnone
    by_contra hcomplete
    obtain ⟨bits, hmiss⟩ := exists_misses htable (Bool.eq_false_of_not_eq_true hcomplete)
    exact hnone bits hmiss

/-- A table is complete exactly if each string of the greatest length has a codeword in front. -/
theorem complete_iff_exists_inFront (htable : ofLengths limits lengths = .ok table) :
    table.complete = true ↔ ∀ bits : List Bool, bits.length = table.longest.toNat →
      ∃ code symbol, table.InFront bits code symbol := by
  rw [complete_iff_not_misses htable]
  constructor
  · intro hnone bits hlength
    by_contra hfront
    simp only [not_exists] at hfront
    exact hnone bits ⟨hfront, hlength.ge⟩
  · intro hall bits hmiss
    obtain ⟨code, symbol, hdecode, hpre⟩ := hall _ (List.length_take_of_le hmiss.2)
    exact hmiss.1 code symbol ⟨hdecode, hpre.trans (List.take_prefix _ bits)⟩

/-- How many strings of the greatest length are unused, as reported where the code has to be
complete: none if the table is complete, for then it is made all the same. -/
inductive ReportsUnused (limits : Limits) (lengths : List UInt8) (table : Table) : Nat → Prop
  | complete (hcomplete : table.complete = true)
      (hstrict : ofLengths { limits with requireComplete := true } lengths = .ok table) :
      ReportsUnused limits lengths table 0
  | incomplete {unused total : UInt64} (hcomplete : table.complete = false)
      (hstrict : ofLengths { limits with requireComplete := true } lengths =
        .error (.incomplete table.longest unused total)) :
      ReportsUnused limits lengths table unused.toNat

/-- The strings reported as unused are those that the Kraft sum leaves over. -/
theorem exists_reportsUnused (htable : ofLengths limits lengths = .ok table) :
    ∃ unused, ReportsUnused limits lengths table unused ∧
      unused + kraft lengths (maxBits lengths) = 2 ^ maxBits lengths := by
  obtain ⟨layout, hlayout, rfl⟩ := Except.map_eq_ok_iff.1 htable
  rcases Layout.ofLengths_requireComplete hlayout with
    ⟨hcomplete, hstrict⟩ | ⟨hcomplete, unused, total, hstrict, hunused⟩
  · have hkraft := (Layout.describes_of_ofLengths hlayout).complete_iff.1 hcomplete
    refine ⟨0, .complete hcomplete (Except.map_eq_ok_iff.2 ⟨layout, hstrict, rfl⟩), ?_⟩
    rw [Nat.zero_add, hkraft]
  · exact ⟨_, .incomplete hcomplete (Except.map_eq_error_iff.2 hstrict), hunused⟩

/-- **The bit strings that begin with a codeword are the first ones.**  Of the strings of any one
length up to the greatest, they are those whose numbers are less than the Kraft sum of this length.
At the greatest length, those that are left over at the end are what a reader misses; they are as
many as are reported as unused where the code has to be complete.  So a table says that it is
complete exactly if every string of the greatest length begins with a codeword. -/
theorem covered_strings_come_first (htable : Table.ofLengths limits lengths = .ok table)
    (hbook : Codebook.ofLengths limits lengths = .ok book) :
    (∀ window : Codeword, 1 ≤ window.length → window.length ≤ table.longest →
      window.value.toNat < 2 ^ window.length.toNat →
      ((∃ s code, book.code? s = some code ∧ code.length ≤ window.length ∧
          code.bits <+: window.bits) ↔
        window.value.toNat < kraft lengths window.length.toNat)) ∧
    (∃ unused, ReportsUnused limits lengths table unused ∧ unused ≤ 2 ^ table.longest.toNat ∧
      ∀ (window : Codeword) (rest : List Bool), window.length = table.longest →
        window.value.toNat < 2 ^ window.length.toNat →
        ((∃ code left, table.read (window.bits ++ rest) = (.error (.noSymbol code), left)) ↔
          2 ^ table.longest.toNat - unused ≤ window.value.toNat)) ∧
    (table.complete = true ↔ ∀ bits : List Bool, bits.length = table.longest.toNat →
      ∃ s code, book.code? s = some code ∧ code.bits <+: bits) := by
  have hrec := recognizes_of_ofLengths htable
  have h := hrec.toDecodes
  simp only [Codebook.code?_eq_some_iff hbook]
  refine ⟨fun window _ hle hvalue => ?_, ?_, ?_⟩
  · have hwindow : window.Fits := ⟨(UInt8.le_iff_toNat_le.1 hle).trans h.longest_le, hvalue⟩
    rw [← exists_prefix_iff_lt_kraft h.realizable hwindow]
    refine exists_congr fun s => exists_congr fun code => and_congr_right fun hcode => ?_
    refine and_iff_right_of_imp fun hpre => ?_
    exact UInt8.le_iff_toNat_le.2
      ((Codeword.bits_prefix_iff (hcode.fits h.realizable) hwindow).1 hpre).1
  · obtain ⟨unused, hreports, hunused⟩ := exists_reportsUnused htable
    rw [← h.toNat_longest] at hunused
    refine ⟨unused, hreports, by omega, fun window rest hlength hvalue => ?_⟩
    have hwindow : window.Fits := ⟨by rw [hlength]; exact h.longest_le, hvalue⟩
    rw [read_eq_noSymbol_iff hrec, misses_iff_kraft_le h hwindow hlength, ← hunused,
      Nat.add_sub_cancel_left, h.toNat_longest]
  · simp only [← exists_inFront_iff h]
    exact complete_iff_exists_inFront htable

/-- In the code of `0` and `10`, which is incomplete, the string `10` is among the first three and
begins with a codeword; the last string `11` is the one that is reported as unused, and is missed
whatever follows. -/
theorem covered_strings_of_two_bits : ∃ table book,
    Table.ofLengths .deflate [1, 0, 2] = .ok table ∧
    Codebook.ofLengths .deflate [1, 0, 2] = .ok book ∧
    (∃ s code, book.code? s = some code ∧ code.length ≤ 2 ∧ code.bits <+: [true, false]) ∧
    ReportsUnused .deflate [1, 0, 2] table 1 ∧
    ∀ rest, ∃ code left, table.read ([true, true] ++ rest) = (.error (.noSymbol code), left) := by
  have htable : Table.ofLengths .deflate [1, 0, 2] =
      .ok ⟨2, #[⟨0, 1, 0⟩, ⟨2, 1, 1⟩], #[0, 2], false⟩ := by decide +kernel
  have hbook : Codebook.ofLengths .deflate [1, 0, 2] = .ok ⟨#[some ⟨0, 1⟩, none, some ⟨2, 2⟩]⟩ := by
    decide +kernel
  have hstrict : Table.ofLengths { Limits.deflate with requireComplete := true } [1, 0, 2] =
      .error (.incomplete 2 1 4) := by decide +kernel
  obtain ⟨hcovered, ⟨unused, hreports, -, hmissed⟩, -⟩ := covered_strings_come_first htable hbook
  have hone : unused = 1 := by
    cases hreports with
    | complete hcomplete => cases hcomplete
    | incomplete _ hstrict' =>
      rw [hstrict] at hstrict'
      cases hstrict'
      rfl
  subst hone
  refine ⟨_, _, htable, hbook, ?_, hreports, fun rest => ?_⟩
  · exact (hcovered ⟨2, 2⟩ (by decide) (by decide) (by decide)).2 (by decide)
  · exact (hmissed ⟨3, 2⟩ rest rfl (by decide)).2 (by decide)

end Table

end PrefixCode
