/-
# The canonical code

The canonical code with given lengths, described without the computation that produces it:
the codeword of a symbol has the length asked for, and its number is the place of the symbol.

Lengths that can be realized leave room for such codewords, and since the place of a symbol
is beyond everything that begins with an earlier codeword, no codeword begins another
(`IsCanonical.symbol_eq_of_bits_prefix`).  A decoder meets the codewords as bits; that bits are
the codeword of a symbol is said by `Spells`.
-/
import PrefixCode.Proofs.Codeword
import PrefixCode.Proofs.Kraft

namespace PrefixCode

open PrefixCode.Lengths

/-- A codeword is the one of a symbol in the canonical code with these lengths. -/
structure IsCanonical (lengths : List UInt8) (s : Nat) (code : Codeword) : Prop where
  active : s ∈ active lengths
  toNat_length : code.length.toNat = bitsOf lengths s
  toNat_value : code.value.toNat = place lengths s

variable {lengths : List UInt8} {code : Codeword}

namespace IsCanonical

variable {r s : Nat}

/-- A codeword is the one of one symbol. -/
lemma symbol_eq (h : IsCanonical lengths r code) (h' : IsCanonical lengths s code) : r = s :=
  eq_of_place_eq h.active h'.active (h.toNat_length.symm.trans h'.toNat_length)
    (h.toNat_value.symm.trans h'.toNat_value)

/-- A symbol has one codeword. -/
lemma code_eq {d : Codeword} (h : IsCanonical lengths s code) (h' : IsCanonical lengths s d) :
    code = d :=
  Codeword.eq_of_toNat_eq (h.toNat_value.trans h'.toNat_value.symm)
    (h.toNat_length.trans h'.toNat_length.symm)

lemma toNat_toUInt16 (h : IsCanonical lengths s code) (hreal : Realizable lengths) :
    s.toUInt16.toNat = s :=
  hreal.toNat_toUInt16 (lt_length_of_mem_active h.active)

/-! ### Codewords in words -/

lemma fits (h : IsCanonical lengths s code) (hreal : Realizable lengths) : code.Fits where
  length_le := h.toNat_length.trans_le ((bitsOf_le_maxBits h.active).trans hreal.maxBits_le)
  value_lt := by
    rw [h.toNat_value, h.toNat_length]
    exact hreal.place_lt_two_pow h.active

/-- **The canonical code is prefix-free.**  A codeword that begins another one is the same
one: what begins with an earlier codeword lies below the place of a symbol. -/
theorem symbol_eq_of_bits_prefix {d : Codeword} (hreal : Realizable lengths)
    (hr : IsCanonical lengths r code) (hs : IsCanonical lengths s d)
    (h : code.bits <+: d.bits) : r = s := by
  obtain ⟨hle, hvalue⟩ := (Codeword.bits_prefix_iff (hr.fits hreal) (hs.fits hreal)).1 h
  rw [hr.toNat_length, hs.toNat_length, hs.toNat_value, hr.toNat_value,
    Nat.shiftRight_eq_div_pow] at hvalue
  rw [hr.toNat_length, hs.toNat_length] at hle
  by_contra hne
  rcases before_or_before lengths hne with hrs | hsr
  -- the place of `s` without the extra bits is greater than the place of `r`
  · have hstep := place_step hr.active hrs
    rw [Nat.mul_comm, ← Nat.le_div_iff_mul_le (Nat.two_pow_pos _), hvalue] at hstep
    omega
  -- the two codewords have the same length, and then the same number
  · have hbits : bitsOf lengths r = bitsOf lengths s := Nat.le_antisymm hle hsr.bitsOf_le
    rw [hbits, Nat.sub_self, Nat.pow_zero, Nat.div_one] at hvalue
    exact hne (eq_of_place_eq hr.active hs.active hbits hvalue.symm)

end IsCanonical

/-- Every symbol with a length other than zero has a codeword. -/
lemma exists_isCanonical {s : Nat} (hreal : Realizable lengths) (hs : s ∈ active lengths) :
    ∃ code, IsCanonical lengths s code := by
  obtain ⟨l, hl, -⟩ := mem_active_iff_getElem?.1 hs
  exact ⟨⟨UInt32.ofNat (place lengths s), l⟩, hs, (bitsOf_eq hl).symm,
    hreal.toNat_ofNat_place hs⟩

/-! ### Codewords as bits -/

/-- These bits are the codeword of a symbol. -/
def Spells (lengths : List UInt8) (bits : List Bool) (s : Nat) : Prop :=
  ∃ code, IsCanonical lengths s code ∧ code.bits = bits

namespace Spells

variable {r s : Nat} {bits more : List Bool}

lemma mem_active (h : Spells lengths bits s) : s ∈ active lengths := by
  obtain ⟨code, hcode, -⟩ := h
  exact hcode.active

lemma length_eq (h : Spells lengths bits s) : bits.length = bitsOf lengths s := by
  obtain ⟨code, hcode, rfl⟩ := h
  rw [Codeword.length_bits, hcode.toNat_length]

lemma length_le (h : Spells lengths bits s) : bits.length ≤ maxBits lengths :=
  h.length_eq.trans_le (bitsOf_le_maxBits h.mem_active)

lemma ne_nil (h : Spells lengths bits s) : bits ≠ [] := by
  have hpos := bitsOf_pos h.mem_active
  rw [← h.length_eq] at hpos
  exact List.ne_nil_of_length_pos hpos

/-- Bits that go on after a codeword are not a codeword. -/
theorem eq_nil_of_append (hreal : Realizable lengths) (h : Spells lengths bits r)
    (h' : Spells lengths (bits ++ more) s) : more = [] := by
  have hlength := h'.length_eq
  obtain ⟨c, hc, hbits⟩ := h
  obtain ⟨d, hd, hmore⟩ := h'
  have hrs : r = s := hc.symbol_eq_of_bits_prefix hreal hd (hbits ▸ hmore ▸ List.prefix_append _ _)
  subst hrs
  rw [← hbits, List.length_append, Codeword.length_bits, hc.toNat_length] at hlength
  exact List.length_eq_zero_iff.1 (by omega)

end Spells

end PrefixCode
