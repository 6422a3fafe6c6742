/-
# The order of prefixes

Whether one codeword begins another one is found without their bits: the longer one loses its
extra bits by a shift, and what is left is compared as a number.  The shift is one of words, and a
word has no bit left from 32 bits on, whereas lengths go up to 255 (`dropBits`).

For codewords that fit, the test is the prefix relation of their bits.  It is an order on all
others as well, even where a number has more bits than the length says, since it makes no difference
whether bits are dropped in one step or in two (`Nat.shiftRight_shiftRight_sub`).
-/
import PrefixCode.Proofs.Codeword

namespace Nat

/-- Bits are dropped at once or in two steps. -/
lemma shiftRight_shiftRight_sub {v l m n : Nat} (hlm : l ≤ m) (hmn : m ≤ n) :
    v >>> (n - m) >>> (m - l) = v >>> (n - l) := by
  rw [← Nat.shiftRight_add]
  congr 1
  omega

end Nat

namespace PrefixCode.Codeword

variable {c d e : Codeword}

/-! ### Dropping bits of a word -/

/-- A word without its low bits; there is nothing left of it if it does not have as many. -/
def dropBits (value : UInt32) (count : UInt8) : UInt32 :=
  if count < 32 then value >>> count.toUInt32 else 0

/-- To drop bits of a word is to drop them of the number that it stands for. -/
lemma toNat_dropBits (value : UInt32) (count : UInt8) :
    (dropBits value count).toNat = value.toNat >>> count.toNat := by
  unfold dropBits
  split
  · rename_i hlt
    have hlt : count.toNat < 32 := UInt8.lt_iff_toNat_lt.1 hlt
    rw [UInt32.toNat_shiftRight, UInt8.toNat_toUInt32, Nat.mod_eq_of_lt hlt]
  · rename_i hge
    have hge : 32 ≤ count.toNat := UInt8.le_iff_toNat_le.1 (UInt8.not_lt.1 hge)
    have hpow : 2 ^ 32 ≤ 2 ^ count.toNat := Nat.pow_le_pow_right Nat.two_pos hge
    rw [Nat.shiftRight_eq_zero _ _ (value.toNat_lt.trans_le hpow), UInt32.toNat_zero]

/-! ### The test -/

/-- What is compared are words. -/
lemma isPrefixOf_iff_dropBits : c.isPrefixOf d = true ↔
    c.length ≤ d.length ∧ dropBits d.value (d.length - c.length) = c.value := by
  rw [isPrefixOf_iff, ← UInt8.le_iff_toNat_le]
  refine and_congr_right fun hle => ?_
  rw [← UInt32.toNat_inj, toNat_dropBits, UInt8.toNat_sub_of_le _ _ hle]

theorem isPrefixOf_refl (c : Codeword) : c.isPrefixOf c = true := by
  rw [isPrefixOf_iff]
  simp

/-- Codewords that begin each other have the same length, so nothing is dropped. -/
theorem isPrefixOf_antisymm (h : c.isPrefixOf d = true) (h' : d.isPrefixOf c = true) : c = d := by
  obtain ⟨hle, hvalue⟩ := isPrefixOf_iff.1 h
  obtain ⟨hge, -⟩ := isPrefixOf_iff.1 h'
  have hlength : c.length.toNat = d.length.toNat := Nat.le_antisymm hle hge
  rw [hlength, Nat.sub_self, Nat.shiftRight_zero] at hvalue
  exact eq_of_toNat_eq hvalue.symm hlength

theorem isPrefixOf_trans (h : c.isPrefixOf d = true) (h' : d.isPrefixOf e = true) :
    c.isPrefixOf e = true := by
  obtain ⟨hcd, hvalue⟩ := isPrefixOf_iff.1 h
  obtain ⟨hde, hvalue'⟩ := isPrefixOf_iff.1 h'
  rw [← hvalue', Nat.shiftRight_shiftRight_sub hcd hde] at hvalue
  exact isPrefixOf_iff.2 ⟨hcd.trans hde, hvalue⟩

/-- Of two codewords that begin the same one, the shorter one begins the other. -/
lemma isPrefixOf_of_le (h : c.isPrefixOf e = true) (h' : d.isPrefixOf e = true)
    (hle : c.length.toNat ≤ d.length.toNat) : c.isPrefixOf d = true := by
  obtain ⟨-, hvalue⟩ := isPrefixOf_iff.1 h
  obtain ⟨hde, hvalue'⟩ := isPrefixOf_iff.1 h'
  rw [← Nat.shiftRight_shiftRight_sub hle hde, hvalue'] at hvalue
  exact isPrefixOf_iff.2 ⟨hle, hvalue⟩

theorem isPrefixOf_or_isPrefixOf (h : c.isPrefixOf e = true) (h' : d.isPrefixOf e = true) :
    c.isPrefixOf d = true ∨ d.isPrefixOf c = true := by
  rcases Nat.le_total c.length.toNat d.length.toNat with hle | hle
  · exact Or.inl (isPrefixOf_of_le h h' hle)
  · exact Or.inr (isPrefixOf_of_le h' h hle)

/-- **The test finds prefixes.**  It compares the first word with what a shift leaves of the second
one.  For codewords that have room in a word and no bits beyond their lengths, it finds out whether
the bits of the one begin those of the other.  Whatever the words and the lengths, it is an order,
in which the codewords below a given one are comparable to each other. -/
theorem prefix_test_is_order :
    (∀ c d : Codeword, c.isPrefixOf d = true ↔
      c.length ≤ d.length ∧ dropBits d.value (d.length - c.length) = c.value) ∧
    (∀ c d : Codeword, c.length ≤ 32 → c.value.toNat < 2 ^ c.length.toNat →
      d.length ≤ 32 → d.value.toNat < 2 ^ d.length.toNat →
        (c.isPrefixOf d = true ↔ c.bits <+: d.bits)) ∧
    (∀ c : Codeword, c.isPrefixOf c = true) ∧
    (∀ c d : Codeword, c.isPrefixOf d = true → d.isPrefixOf c = true → c = d) ∧
    (∀ c d e : Codeword, c.isPrefixOf d = true → d.isPrefixOf e = true → c.isPrefixOf e = true) ∧
    ∀ c d e : Codeword, c.isPrefixOf e = true → d.isPrefixOf e = true →
      c.isPrefixOf d = true ∨ d.isPrefixOf c = true := by
  refine ⟨fun c d => isPrefixOf_iff_dropBits, fun c d hc hcv hd hdv => ?_, isPrefixOf_refl,
    fun c d => isPrefixOf_antisymm, fun c d e => isPrefixOf_trans,
    fun c d e => isPrefixOf_or_isPrefixOf⟩
  exact isPrefixOf_eq_true_iff ⟨UInt8.le_iff_toNat_le.1 hc, hcv⟩ ⟨UInt8.le_iff_toNat_le.1 hd, hdv⟩

/-- The codeword `10` begins `101`.  Zero in three bits begins five in forty, of which a shift by
37 bits leaves nothing, and so it begins twenty in 42 bits. -/
theorem prefixes_of_short_and_long_codewords :
    (⟨2, 2⟩ : Codeword).bits <+: (⟨5, 3⟩ : Codeword).bits ∧
    (⟨0, 3⟩ : Codeword).isPrefixOf ⟨5, 40⟩ = true ∧
    (⟨5, 40⟩ : Codeword).isPrefixOf ⟨20, 42⟩ = true ∧
    (⟨0, 3⟩ : Codeword).isPrefixOf ⟨20, 42⟩ = true := by
  obtain ⟨-, hbits, -, -, htrans, -⟩ := prefix_test_is_order
  have hshort : (⟨2, 2⟩ : Codeword).isPrefixOf ⟨5, 3⟩ = true := by decide
  have hzero : (⟨0, 3⟩ : Codeword).isPrefixOf ⟨5, 40⟩ = true := by decide
  have hfive : (⟨5, 40⟩ : Codeword).isPrefixOf ⟨20, 42⟩ = true := by decide
  exact ⟨(hbits _ _ (by decide) (by decide) (by decide) (by decide)).1 hshort, hzero, hfive,
    htrans _ _ _ hzero hfive⟩

end PrefixCode.Codeword
