/-
# The least code in canonical order

Many prefix codes have the same lengths.  Here the canonical one is compared with those whose
codewords are in the same order as its own, by length and then by symbol.  Each codeword takes up
an interval of the strings of the greatest length, those that begin with it (`interval`).  In a
prefix code these intervals are disjoint, and in an ordered one they come in the order of the
symbols.  So the intervals of the symbols before `s` have to fit in front of the one of `s`, which
makes its codeword at least as great as the canonical one (`place_le`); and all the others have to
fit in from there to the end, which makes it greater by no more than the code leaves free
(`add_kraft_le`).  A complete code leaves nothing free, and there the codewords are the canonical
ones.
-/
import Mathlib.Algebra.Order.BigOperators.Group.Finset
import Mathlib.Order.Interval.Finset.Nat
import PrefixCode.Proofs.Coverage
import PrefixCode.Proofs.Order

namespace PrefixCode

namespace Lengths

/-- Codewords, one for each symbol, are a prefix code with these lengths, and in the order of a
dictionary they are ordered by length and then by symbol. -/
structure IsOrderedCode (lengths : List UInt8) (code : Nat → Codeword) : Prop extends
    IsPrefixCode lengths fun s => (code s).bits where
  value_lt : ∀ s ∈ active lengths, (code s).value.toNat < 2 ^ bitsOf lengths s
  bits_lt_iff : ∀ r ∈ active lengths, ∀ s ∈ active lengths,
    (code r).bits < (code s).bits ↔ Before lengths r s

/-- The strings of the greatest length, as numbers, that begin with the codeword of `s`. -/
def interval (lengths : List UInt8) (code : Nat → Codeword) (s : Nat) : Finset Nat :=
  Finset.Ico (2 ^ (maxBits lengths - bitsOf lengths s) * (code s).value.toNat)
    (2 ^ (maxBits lengths - bitsOf lengths s) * ((code s).value.toNat + 1))

lemma card_interval (lengths : List UInt8) (code : Nat → Codeword) (s : Nat) :
    (interval lengths code s).card = 2 ^ (maxBits lengths - bitsOf lengths s) := by
  rw [interval, Nat.card_Ico, Nat.mul_add, Nat.mul_one, Nat.add_sub_cancel_left]

namespace IsOrderedCode

variable {lengths : List UInt8} {code : Nat → Codeword} {r s : Nat}

lemma toNat_length (h : IsOrderedCode lengths code) (hs : s ∈ active lengths) :
    (code s).length.toNat = bitsOf lengths s := by
  rw [← Codeword.length_bits]
  exact h.length_eq s hs

lemma fits (h : IsOrderedCode lengths code) (hreal : Realizable lengths)
    (hs : s ∈ active lengths) : (code s).Fits where
  length_le := (h.toNat_length hs).trans_le ((bitsOf_le_maxBits hs).trans hreal.maxBits_le)
  value_lt := by
    rw [h.toNat_length hs]
    exact h.value_lt s hs

/-- The strings that begin with a codeword end before those that begin with a later one. -/
lemma end_le (h : IsOrderedCode lengths code) (hreal : Realizable lengths)
    (hr : r ∈ active lengths) (hs : s ∈ active lengths) (hrs : Before lengths r s) :
    2 ^ (maxBits lengths - bitsOf lengths r) * ((code r).value.toNat + 1) ≤
      2 ^ (maxBits lengths - bitsOf lengths s) * (code s).value.toNat := by
  have hne : r ≠ s := by
    rintro rfl
    exact not_before_self lengths r hrs
  have hle := hrs.bitsOf_le
  have hmax := bitsOf_le_maxBits hs
  have hstep := (Codeword.bits_lt_and_not_prefix_iff (h.fits hreal hr) (h.fits hreal hs)
    (by rw [h.toNat_length hr, h.toNat_length hs]; exact hle)).1
    ⟨(h.bits_lt_iff r hr s hs).2 hrs, h.not_prefix r hr s hs hne⟩
  rw [h.toNat_length hr, h.toNat_length hs] at hstep
  calc 2 ^ (maxBits lengths - bitsOf lengths r) * ((code r).value.toNat + 1)
      = 2 ^ (maxBits lengths - bitsOf lengths s) *
          (2 ^ (bitsOf lengths s - bitsOf lengths r) * ((code r).value.toNat + 1)) := by
        rw [← Nat.mul_assoc, ← Nat.pow_add]
        congr 2
        omega
    _ ≤ 2 ^ (maxBits lengths - bitsOf lengths s) * (code s).value.toNat :=
        Nat.mul_le_mul_left _ hstep

lemma disjoint_interval (h : IsOrderedCode lengths code) (hreal : Realizable lengths)
    (hr : r ∈ active lengths) (hs : s ∈ active lengths) (hne : r ≠ s) :
    Disjoint (interval lengths code r) (interval lengths code s) := by
  rw [Finset.disjoint_left]
  intro v hvr hvs
  rw [interval, Finset.mem_Ico] at hvr hvs
  rcases before_or_before lengths hne with hrs | hsr
  · have := h.end_le hreal hr hs hrs
    omega
  · have := h.end_le hreal hs hr hsr
    omega

/-- Codewords whose strings all lie between two numbers have no more of them than there are. -/
lemma sum_weights_le (h : IsOrderedCode lengths code) (hreal : Realizable lengths)
    {S : Finset Nat} (hS : S ⊆ active lengths) {a b : Nat}
    (hsub : ∀ s ∈ S, interval lengths code s ⊆ Finset.Ico a b) :
    ∑ s ∈ S, 2 ^ (maxBits lengths - bitsOf lengths s) ≤ b - a := by
  have hdisj : ∀ r ∈ S, ∀ s ∈ S, r ≠ s →
      Disjoint (interval lengths code r) (interval lengths code s) := fun r hr s hs =>
    h.disjoint_interval hreal (hS hr) (hS hs)
  have hcard := Finset.card_le_card (Finset.biUnion_subset.2 hsub)
  rw [Finset.card_biUnion hdisj, Nat.card_Ico] at hcard
  simpa only [card_interval] using hcard

/-- **No codeword is less than the canonical one.**  The strings that begin with earlier codewords
all lie in front of those that begin with this one. -/
theorem place_le (h : IsOrderedCode lengths code) (hreal : Realizable lengths)
    (hs : s ∈ active lengths) : place lengths s ≤ (code s).value.toNat := by
  have hsum := h.sum_weights_le hreal (Finset.filter_subset (Before lengths · s) (active lengths))
    (a := 0) fun r hr => by
      obtain ⟨hr, hrs⟩ := Finset.mem_filter.1 hr
      exact Finset.Ico_subset_Ico (Nat.zero_le _) (h.end_le hreal hr hs hrs)
  rw [← two_pow_mul_place lengths (bitsOf_le_maxBits hs)] at hsum
  exact Nat.le_of_mul_le_mul_left hsum (Nat.two_pow_pos _)

/-- **A codeword is greater than the canonical one by no more than the code leaves free.**  The
strings that begin with it or with later codewords all lie between the first of them and the
end. -/
theorem add_kraft_le (h : IsOrderedCode lengths code) (hreal : Realizable lengths)
    (hs : s ∈ active lengths) :
    2 ^ (maxBits lengths - bitsOf lengths s) * (code s).value.toNat +
        kraft lengths (maxBits lengths) ≤
      2 ^ maxBits lengths + 2 ^ (maxBits lengths - bitsOf lengths s) * place lengths s := by
  have hend : ∀ r ∈ active lengths,
      2 ^ (maxBits lengths - bitsOf lengths r) * ((code r).value.toNat + 1) ≤
        2 ^ maxBits lengths := by
    intro r hr
    have hlt := Nat.mul_le_mul_left (2 ^ (maxBits lengths - bitsOf lengths r))
      (Nat.succ_le_of_lt (h.value_lt r hr))
    rwa [← Nat.pow_add, Nat.sub_add_cancel (bitsOf_le_maxBits hr)] at hlt
  have hsum := h.sum_weights_le hreal
    (Finset.filter_subset (fun r => ¬ Before lengths r s) (active lengths))
    (a := 2 ^ (maxBits lengths - bitsOf lengths s) * (code s).value.toNat)
    (b := 2 ^ maxBits lengths) fun r hr => by
      obtain ⟨hr, hnot⟩ := Finset.mem_filter.1 hr
      refine Finset.Ico_subset_Ico ?_ (hend r hr)
      rcases eq_or_ne s r with rfl | hne
      · exact le_rfl
      · have hsr := (before_or_before lengths hne).resolve_right hnot
        exact (Nat.mul_le_mul_left _ (Nat.le_succ _)).trans (h.end_le hreal hs hr hsr)
  have hsplit := Finset.sum_filter_add_sum_filter_not (active lengths) (Before lengths · s)
    fun r => 2 ^ (maxBits lengths - bitsOf lengths r)
  have hkraft : kraft lengths (maxBits lengths) =
      ∑ r ∈ active lengths, 2 ^ (maxBits lengths - bitsOf lengths r) := by
    rw [kraft, Finset.filter_true_of_mem fun r hr => bitsOf_le_maxBits hr]
  have hstart := hend s hs
  rw [← two_pow_mul_place lengths (bitsOf_le_maxBits hs)] at hsplit
  rw [Nat.mul_add] at hstart
  omega

end IsOrderedCode

end Lengths

open PrefixCode.Lengths

/-! ### The codewords of a codebook -/

namespace Codebook

variable {limits : Limits} {lengths : List UInt8} {book : Codebook} {table : Table} {s : Nat}

/-- The codewords of a codebook are a prefix code in canonical order. -/
theorem isOrderedCode_codeword (h : Codebook.ofLengths limits lengths = .ok book) :
    IsOrderedCode lengths book.codeword := by
  have hreal := realizable_of_ofLengths h
  refine ⟨isPrefixCode_word h, fun s hs => ?_, fun r hr s hs => ?_⟩
  · rw [(isCanonical_codeword h hs).toNat_value]
    exact hreal.place_lt_two_pow hs
  · exact (isCanonical_codeword h hr).bits_lt_iff hreal (isCanonical_codeword h hs)

/-- **The canonical codewords are the least ones in canonical order.**  The codewords that a
codebook hands out are a prefix code with these lengths, ordered by length and then by symbol; and
in any other such code no codeword is a smaller number.  If the code is complete there is no other
such code. -/
theorem canonical_codewords_are_least (htable : Table.ofLengths limits lengths = .ok table)
    (hbook : Codebook.ofLengths limits lengths = .ok book) :
    IsOrderedCode lengths book.codeword ∧
      ∀ code, IsOrderedCode lengths code → ∀ s ∈ active lengths,
        ∃ canonical, book.code? s = some canonical ∧ canonical.value ≤ (code s).value ∧
          (table.complete = true → code s = canonical) := by
  refine ⟨isOrderedCode_codeword hbook, fun code h s hs => ?_⟩
  have hreal := realizable_of_ofLengths hbook
  have hcanonical := isCanonical_codeword hbook hs
  have hle := h.place_le hreal hs
  refine ⟨book.codeword s, code?_eq_some_codeword hbook hs, ?_, fun hcomplete => ?_⟩
  · rw [UInt32.le_iff_toNat_le, hcanonical.toNat_value]
    exact hle
  · have hfree := h.add_kraft_le hreal hs
    rw [(Table.complete_iff_kraft_eq htable).1 hcomplete, Nat.add_comm (2 ^ _)] at hfree
    have hge := Nat.le_of_mul_le_mul_left (Nat.add_le_add_iff_right.1 hfree) (Nat.two_pow_pos _)
    exact IsCanonical.code_eq ⟨hs, h.toNat_length hs, Nat.le_antisymm hge hle⟩ hcanonical

/-- Beside the code of `0` and `10` there is the one of `0` and `11`, with the same lengths and in
the same order, and its codewords are no smaller; but there is only one code with the lengths of
`0`, `10` and `11` in this order, since it is complete. -/
theorem least_codes_of_few_lengths : ∃ part full,
    Codebook.ofLengths .deflate [1, 0, 2] = .ok part ∧
    IsOrderedCode [1, 0, 2] (fun s => if s = 0 then ⟨0, 1⟩ else ⟨3, 2⟩) ∧
    (∃ canonical, part.code? 2 = some canonical ∧ canonical.value ≤ 3) ∧
    Codebook.ofLengths .deflate [1, 2, 2] = .ok full ∧
    ∀ code, IsOrderedCode [1, 2, 2] code → full.code? 1 = some (code 1) := by
  have hpart : Codebook.ofLengths .deflate [1, 0, 2] =
      .ok ⟨#[some ⟨0, 1⟩, none, some ⟨2, 2⟩]⟩ := by decide +kernel
  have hfull : Codebook.ofLengths .deflate [1, 2, 2] =
      .ok ⟨#[some ⟨0, 1⟩, some ⟨2, 2⟩, some ⟨3, 2⟩]⟩ := by decide +kernel
  have hpartTable : Table.ofLengths .deflate [1, 0, 2] =
      .ok ⟨2, #[⟨0, 1, 0⟩, ⟨2, 1, 1⟩], #[0, 2], false⟩ := by decide +kernel
  have hfullTable : Table.ofLengths .deflate [1, 2, 2] =
      .ok ⟨2, #[⟨0, 1, 0⟩, ⟨2, 2, 1⟩], #[0, 1, 2], true⟩ := by decide +kernel
  have hrival : IsOrderedCode [1, 0, 2] (fun s => if s = 0 then ⟨0, 1⟩ else ⟨3, 2⟩) :=
    ⟨⟨by decide +kernel, by decide +kernel⟩, by decide +kernel, by decide +kernel⟩
  obtain ⟨c, hc, hle, -⟩ :=
    (canonical_codewords_are_least hpartTable hpart).2 _ hrival 2 (by decide)
  refine ⟨_, _, hpart, hrival, ⟨c, hc, hle⟩, hfull, fun code h => ?_⟩
  obtain ⟨d, hd, -, hunique⟩ :=
    (canonical_codewords_are_least hfullTable hfull).2 code h 1 (by decide)
  rw [hunique rfl]
  exact hd

end Codebook

end PrefixCode
