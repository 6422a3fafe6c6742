/-
# Giving up codewords and lengthening others

Suppose that in an accepted list some symbols give up their codewords, and that others get longer
ones.  The counts of all lengths change, and so do the first codewords; but among the bit strings
of one length no symbol takes more than it did (`Shrinks.kraft_le`), and an accepted list leaves
enough strings of every length, also of those beyond its own longest codewords.  So no length is
overfull afterwards, although the longest codewords may have become longer, or may be gone.

With no completeness asked for, the only way left to be refused is to have no codeword at all
(`acceptance_survives_lengthening`).
-/
import Mathlib.Data.List.Forall2
import PrefixCode.Codebook
import PrefixCode.Proofs.Acceptance
import PrefixCode.Table

namespace PrefixCode

open PrefixCode.Lengths

variable {limits : Limits} {max : UInt8} {a b : List UInt8} {layout : Layout}

/-! ### Shrinking shares -/

namespace Lengths

/-- What may come in place of the length `k`: no codeword, or one that is no shorter and keeps to
the greatest length. -/
def DropsOrLengthens (max k l : UInt8) : Prop :=
  l = 0 ∨ 0 < k ∧ k ≤ l ∧ l ≤ max

instance (max k l : UInt8) : Decidable (DropsOrLengthens max k l) :=
  inferInstanceAs (Decidable (_ ∨ _))

/-- In the list `b` each symbol has given up its codeword of the list `a`, or has one that is no
shorter. -/
def Shrinks (max : UInt8) (a b : List UInt8) : Prop :=
  List.Forall₂ (DropsOrLengthens max) a b

instance (max : UInt8) (a b : List UInt8) : Decidable (Shrinks max a b) :=
  inferInstanceAs (Decidable (List.Forall₂ _ _ _))

namespace Shrinks

lemma length_eq (h : Shrinks max a b) : a.length = b.length :=
  List.Forall₂.length_eq h

/-- A symbol that has a codeword had one, which was no longer. -/
lemma getElem?_of_mem_active (h : Shrinks max a b) {s : Nat} (hs : s ∈ active b) :
    ∃ k l, a[s]? = some k ∧ b[s]? = some l ∧ 0 < k ∧ k ≤ l ∧ l ≤ max := by
  obtain ⟨l, hl, hne⟩ := mem_active_iff_getElem?.1 hs
  obtain ⟨hlt, rfl⟩ := List.getElem?_eq_some_iff.1 hl
  obtain ⟨hlength, hall⟩ := List.forall₂_iff_get.1 h
  have hlt' : s < a.length := hlength ▸ hlt
  rcases hall s hlt' hlt with hzero | hlong
  · exact absurd hzero hne
  · exact ⟨a[s], b[s], List.getElem?_eq_getElem hlt', hl, hlong⟩

lemma bitsOf_le_of_mem_active (h : Shrinks max a b) {s : Nat} (hs : s ∈ active b) :
    bitsOf a s ≤ bitsOf b s := by
  obtain ⟨k, l, hk, hl, -, hle, -⟩ := h.getElem?_of_mem_active hs
  rw [bitsOf_eq hk, bitsOf_eq hl]
  exact UInt8.le_iff_toNat_le.1 hle

lemma active_subset (h : Shrinks max a b) : active b ⊆ active a := by
  intro s hs
  obtain ⟨k, -, hk, -, hpos, -⟩ := h.getElem?_of_mem_active hs
  rw [mem_active, bitsOf_eq hk]
  exact (UInt8.lt_iff_toNat_lt.1 hpos).ne'

/-- Among the strings of one length, all that begin with a codeword are no more than before. -/
theorem kraft_le (h : Shrinks max a b) (L : Nat) : kraft b L ≤ kraft a L := by
  have hsub : {s ∈ active b | bitsOf b s ≤ L} ⊆ {s ∈ active a | bitsOf a s ≤ L} := by
    intro s hs
    obtain ⟨hs, hle⟩ := Finset.mem_filter.1 hs
    exact Finset.mem_filter.2 ⟨h.active_subset hs, (h.bitsOf_le_of_mem_active hs).trans hle⟩
  calc kraft b L
      ≤ ∑ s ∈ active b with bitsOf b s ≤ L, 2 ^ (L - bitsOf a s) := by
        refine Finset.sum_le_sum fun s hs => Nat.pow_le_pow_right Nat.two_pos ?_
        exact Nat.sub_le_sub_left (h.bitsOf_le_of_mem_active (Finset.mem_filter.1 hs).1) L
    _ ≤ kraft a L := Finset.sum_le_sum_of_subset hsub

/-- A list that has shrunk has enough bit strings if it had enough before. -/
theorem kraft_maxBits_le (h : Shrinks max a b) (ha : Realizable a) :
    kraft b (maxBits b) ≤ 2 ^ maxBits b :=
  (h.kraft_le _).trans (ha.kraft_le_two_pow _)

lemma maxBits_le (h : Shrinks max a b) : maxBits b ≤ max.toNat := by
  refine Finset.sup_le fun s hs => ?_
  obtain ⟨-, l, -, hl, -, -, hmax⟩ := h.getElem?_of_mem_active hs
  rw [bitsOf_eq hl]
  exact UInt8.le_iff_toNat_le.1 hmax

end Shrinks

end Lengths

/-! ### Construction -/

namespace Layout

/-- What becomes of lengths that shrink: they are laid out as long as one codeword is left. -/
theorem ofLengths_of_shrinks (hreq : limits.requireComplete = false)
    (ha : ofLengths limits a = .ok layout) (h : Shrinks limits.maxLength a b) :
    (0 < maxBits b ∧ ∃ layout', ofLengths limits b = .ok layout') ∨
    (maxBits b = 0 ∧ ofLengths limits b = .error .emptyAlphabet) := by
  have hadmits := admits_of_ofLengths ha
  have hn : b.length ≤ maxSymbols := h.length_eq ▸ hadmits.length_le
  rcases Nat.eq_zero_or_pos (maxBits b) with hzero | hpos
  · exact Or.inr ⟨hzero,
      ofLengths_of_maxBits_eq_zero hadmits.maxLength_ne_zero hadmits.maxLength_le hn hzero⟩
  · have hadmits' : limits.Admits b :=
      ⟨hadmits.maxLength_ne_zero, hadmits.maxLength_le, hn, h.maxBits_le, hpos⟩
    rcases hadmits'.ofLengths_cases with ⟨hover, -⟩ | ⟨-, hreq', -⟩ | ⟨layout', -, -, hres⟩
    · have hfit := h.kraft_maxBits_le (describes_of_ofLengths ha).realizable
      exact absurd hfit (Nat.not_le.2 hover)
    · rw [hreq] at hreq'
      cases hreq'
    · exact Or.inl ⟨hpos, layout', hres⟩

end Layout

namespace Table

/-- **Codewords can be given up and lengthened.**  Let lengths be accepted where the code does not
have to be complete.  If some symbols give up their codewords and others get longer ones, as long as
the limits allow, then the new lengths are accepted too, unless no symbol has kept a codeword: then
the alphabet is empty, and this is what is reported.  No length is ever found oversubscribed. -/
theorem acceptance_survives_lengthening {A : Table} (hreq : limits.requireComplete = false)
    (hA : Table.ofLengths limits a = .ok A) (h : Shrinks limits.maxLength a b) :
    ((∃ l ∈ b, l ≠ 0) → (∃ B, Table.ofLengths limits b = .ok B) ∧
      ∃ book, Codebook.ofLengths limits b = .ok book) ∧
    ((∀ l ∈ b, l = 0) → Table.ofLengths limits b = .error .emptyAlphabet ∧
      Codebook.ofLengths limits b = .error .emptyAlphabet) ∧
    ∀ L, Table.ofLengths limits b ≠ .error (.oversubscribed L) ∧
      Codebook.ofLengths limits b ≠ .error (.oversubscribed L) := by
  obtain ⟨layout, hlayout, -⟩ := Except.map_eq_ok_iff.1 hA
  rcases Layout.ofLengths_of_shrinks hreq hlayout h with ⟨hpos, layout', hres⟩ | ⟨hzero, hres⟩
  · have hB : Table.ofLengths limits b = .ok _ := Except.map_eq_ok_iff.2 ⟨layout', hres, rfl⟩
    have hbook : Codebook.ofLengths limits b = .ok _ :=
      Except.map_eq_ok_iff.2 ⟨layout', hres, rfl⟩
    refine ⟨fun _ => ⟨⟨_, hB⟩, _, hbook⟩, fun hall => ?_, fun L => ?_⟩
    · obtain ⟨l, hl, hne⟩ := Layout.maxBits_pos_iff.1 hpos
      exact absurd (hall l hl) hne
    · rw [hB, hbook]
      exact ⟨nofun, nofun⟩
  · have hB : Table.ofLengths limits b = .error .emptyAlphabet := Except.map_eq_error_iff.2 hres
    have hbook : Codebook.ofLengths limits b = .error .emptyAlphabet :=
      Except.map_eq_error_iff.2 hres
    refine ⟨fun hsome => ?_, fun _ => ⟨hB, hbook⟩, fun L => ?_⟩
    · have hpos := Layout.maxBits_pos_iff.2 hsome
      omega
    · rw [hB, hbook]
      exact ⟨nofun, nofun⟩

/-- Of the codewords of 1, 2, 3 and 3 bits the third can be given up while others get as long as the
limits of DEFLATE allow; and with all of them given up the alphabet is empty. -/
theorem lengthening_of_four_codewords : ∃ A B,
    Table.ofLengths .deflate [1, 2, 3, 3] = .ok A ∧
    Table.ofLengths .deflate [15, 2, 0, 7] = .ok B ∧
    Table.ofLengths .deflate [0, 0, 0, 0] = .error .emptyAlphabet := by
  have hA : Table.ofLengths .deflate [1, 2, 3, 3] =
      .ok ⟨3, #[⟨0, 1, 0⟩, ⟨2, 1, 1⟩, ⟨6, 2, 2⟩], #[0, 1, 2, 3], true⟩ := by decide +kernel
  have hlonger : Shrinks Limits.deflate.maxLength [1, 2, 3, 3] [15, 2, 0, 7] := by decide
  have hdropped : Shrinks Limits.deflate.maxLength [1, 2, 3, 3] [0, 0, 0, 0] := by decide
  obtain ⟨⟨B, hB⟩, -⟩ := (acceptance_survives_lengthening rfl hA hlonger).1
    ⟨2, by decide, by decide⟩
  obtain ⟨hempty, -⟩ := (acceptance_survives_lengthening rfl hA hdropped).2.1 (by simp)
  exact ⟨_, B, hA, hB, hempty⟩

end Table

end PrefixCode
