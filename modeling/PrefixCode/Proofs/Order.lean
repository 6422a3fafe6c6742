/-
# Codewords in the order of a dictionary

Bit strings are compared bit by bit from the left, as words are in a dictionary.  If neither of
two strings begins the other, the comparison comes down to one of numbers: the longer string is
cut to the length of the shorter one (`lt_and_not_prefix_iff`).  For codewords this says that the
second one lies beyond all the strings that begin with the first one
(`bits_lt_and_not_prefix_iff`), and this is what the place of a symbol does to the codewords handed
out before it.  So the codewords of a codebook are in the order in which they are handed out: by
length, and for one length by symbol.
-/
import Mathlib.Data.List.Lex
import PrefixCode.Proofs.PrefixFree

namespace PrefixCode

open PrefixCode.Lengths

/-! ### Bit strings and their numbers -/

namespace Codeword

variable {c d : Codeword}

lemma numberOf_cons (bit : Bool) (bits : List Bool) :
    numberOf (bit :: bits) = 2 ^ bits.length * bit.toNat + numberOf bits := by
  rw [← List.singleton_append, numberOf_append]
  simp [numberOf]

/-- A string that is not longer than another one precedes it, without beginning it, exactly if
its number is less than the number of as many bits of the other. -/
theorem lt_and_not_prefix_iff {u v : List Bool} (h : u.length ≤ v.length) :
    (u < v ∧ ¬ u <+: v) ↔ numberOf u < numberOf (v.take u.length) := by
  induction u generalizing v with
  | nil => simp
  | cons a u ih =>
    cases v with
    | nil => simp at h
    | cons b v =>
      simp only [List.length_cons, Nat.add_le_add_iff_right] at h
      have hu := numberOf_lt u
      have hv := numberOf_lt (v.take u.length)
      rw [List.length_take_of_le h] at hv
      rw [List.cons_lt_cons_iff, List.cons_prefix_cons, List.length_cons, List.take_succ_cons,
        numberOf_cons, numberOf_cons, List.length_take_of_le h]
      -- the first bits decide, unless they are the same
      cases a <;> cases b
      · simpa using ih h
      · simp
        omega
      · have hnot : ¬ true < false := by decide
        simp [hnot]
        omega
      · simpa using ih h

/-- A codeword that is not longer than another one precedes it, without beginning it, exactly if
the other one lies beyond all the strings of its length that begin with the first. -/
theorem bits_lt_and_not_prefix_iff (hc : c.Fits) (hd : d.Fits)
    (hle : c.length.toNat ≤ d.length.toNat) :
    (c.bits < d.bits ∧ ¬ c.bits <+: d.bits) ↔
      2 ^ (d.length.toNat - c.length.toNat) * (c.value.toNat + 1) ≤ d.value.toNat := by
  rw [lt_and_not_prefix_iff (by rw [length_bits, length_bits]; exact hle), length_bits,
    numberOf_bits hc, lt_numberOf_take_bits_iff hd]

end Codeword

/-! ### The order of the canonical code -/

variable {limits : Limits} {lengths : List UInt8} {book : Codebook} {r s : Nat}

namespace IsCanonical

variable {c d : Codeword}

/-- Codewords handed out earlier precede those handed out later. -/
lemma bits_lt_of_before (hreal : Realizable lengths) (hr : IsCanonical lengths r c)
    (hs : IsCanonical lengths s d) (h : Before lengths r s) : c.bits < d.bits := by
  have hle : c.length.toNat ≤ d.length.toNat := by
    rw [hr.toNat_length, hs.toNat_length]
    exact h.bitsOf_le
  refine ((Codeword.bits_lt_and_not_prefix_iff (hr.fits hreal) (hs.fits hreal) hle).2 ?_).1
  rw [hr.toNat_length, hs.toNat_length, hr.toNat_value, hs.toNat_value]
  exact place_step hr.active h

/-- The codewords are in the order in which they are handed out. -/
theorem bits_lt_iff (hreal : Realizable lengths) (hr : IsCanonical lengths r c)
    (hs : IsCanonical lengths s d) : c.bits < d.bits ↔ Before lengths r s := by
  refine ⟨fun hlt => ?_, bits_lt_of_before hreal hr hs⟩
  by_contra hnot
  rcases eq_or_ne r s with rfl | hne
  · exact lt_irrefl _ (hr.code_eq hs ▸ hlt)
  · have hsr := (before_or_before lengths hne).resolve_left hnot
    exact lt_asymm hlt (bits_lt_of_before hreal hs hr hsr)

/-- The first bits of a longer codeword are a greater number than a shorter codeword. -/
lemma toNat_value_lt_numberOf_take (hreal : Realizable lengths) (hr : IsCanonical lengths r c)
    (hs : IsCanonical lengths s d) (h : bitsOf lengths r < bitsOf lengths s) :
    c.value.toNat < Codeword.numberOf (d.bits.take (bitsOf lengths r)) := by
  rw [Codeword.lt_numberOf_take_bits_iff (hs.fits hreal), hs.toNat_length, hr.toNat_value,
    hs.toNat_value]
  exact place_step hr.active (Or.inl h)

end IsCanonical

namespace Codebook

/-- **The codewords are in canonical order.**  Of two symbols with codewords, the one whose
codeword comes first in the order of a dictionary is the one with the shorter codeword or, if the
two are of one length, the smaller symbol.  As many bits of a longer codeword as a shorter one has
are a greater number than that is. -/
theorem codewords_in_canonical_order (h : Codebook.ofLengths limits lengths = .ok book)
    (hr : r ∈ active lengths) (hs : s ∈ active lengths) :
    ∃ c d, book.code? r = some c ∧ book.code? s = some d ∧
      (c.bits < d.bits ↔ bitsOf lengths r < bitsOf lengths s ∨
        bitsOf lengths r = bitsOf lengths s ∧ r < s) ∧
      (bitsOf lengths r < bitsOf lengths s →
        c.value.toNat < Codeword.numberOf (d.bits.take (bitsOf lengths r))) := by
  have hreal := realizable_of_ofLengths h
  obtain ⟨c, hrc, hc⟩ := exists_code?_eq_some h hr
  obtain ⟨d, hsd, hd⟩ := exists_code?_eq_some h hs
  exact ⟨c, d, hrc, hsd, hc.bits_lt_iff hreal hd, hc.toNat_value_lt_numberOf_take hreal hd⟩

/-- The codeword `0` of the second symbol precedes the codeword `111` of the last one, whose first
bit is the greater number. -/
theorem order_of_two_codewords : ∃ book c d,
    Codebook.ofLengths .deflate [2, 1, 0, 3, 3] = .ok book ∧
    1 ∈ active [2, 1, 0, 3, 3] ∧ 4 ∈ active [2, 1, 0, 3, 3] ∧
    book.code? 1 = some c ∧ book.code? 4 = some d ∧
    c.bits < d.bits ∧ c.value.toNat < Codeword.numberOf (d.bits.take 1) := by
  have hbook : Codebook.ofLengths .deflate [2, 1, 0, 3, 3] =
      .ok ⟨#[some ⟨2, 2⟩, some ⟨0, 1⟩, none, some ⟨6, 3⟩, some ⟨7, 3⟩]⟩ := by decide +kernel
  have hone : 1 ∈ active [2, 1, 0, 3, 3] := by decide
  have hfour : 4 ∈ active [2, 1, 0, 3, 3] := by decide
  have hbits : bitsOf [2, 1, 0, 3, 3] 1 < bitsOf [2, 1, 0, 3, 3] 4 := by decide
  obtain ⟨c, d, hc, hd, horder, hnumber⟩ := codewords_in_canonical_order hbook hone hfour
  exact ⟨_, c, d, hbook, hone, hfour, hc, hd, horder.2 (Or.inl hbits), hnumber hbits⟩

end Codebook

end PrefixCode
