/-
# Codewords as numbers and as bit strings

A codeword `Fits` if it has room in a word and its number has no bits beyond its length.
Such codewords and bit strings of at most 32 bits are the same thing: `bits` and `ofBits`
undo each other, and one codeword begins another exactly if the number of the longer one,
without its extra bits, is the number of the shorter one (`bits_prefix_iff`).
-/
import Mathlib.Algebra.Group.Nat.Defs
import Mathlib.Data.List.Infix
import Mathlib.Data.Nat.Digits.Defs
import PrefixCode.Codeword

namespace PrefixCode.Codeword

variable {c d : Codeword}

/-- A codeword is determined by its number and its length. -/
lemma eq_of_toNat_eq (hvalue : c.value.toNat = d.value.toNat)
    (hlength : c.length.toNat = d.length.toNat) : c = d := by
  cases c
  cases d
  simp only [mk.injEq]
  exact ⟨UInt32.toNat_inj.1 hvalue, UInt8.toNat_inj.1 hlength⟩

/-- The number of a codeword is written with the bits that the codeword has. -/
structure Fits (c : Codeword) : Prop where
  length_le : c.length.toNat ≤ 32
  value_lt : c.value.toNat < 2 ^ c.length.toNat

lemma Fits.testBit_eq_false (h : c.Fits) {i : Nat} (hi : c.length.toNat ≤ i) :
    c.value.toNat.testBit i = false :=
  Nat.testBit_lt_two_pow (h.value_lt.trans_le (Nat.pow_le_pow_right Nat.two_pos hi))

lemma Fits.length_bits_le (h : c.Fits) : c.bits.length ≤ 32 :=
  (length_bits c).trans_le h.length_le

/-! ### The bits of a codeword -/

lemma getElem?_bits {i : Nat} (h : i < c.length.toNat) :
    c.bits[i]? = some (c.value.toNat.testBit (c.length.toNat - 1 - i)) := by
  rw [bits, List.getElem?_map, List.getElem?_reverse (by simpa using h), List.length_range,
    List.getElem?_range (by omega), Option.map_some]

/-- A codeword begins another one exactly if dropping the extra bits leaves its number. -/
theorem bits_prefix_iff (hc : c.Fits) (hd : d.Fits) :
    c.bits <+: d.bits ↔ c.length.toNat ≤ d.length.toNat ∧
      d.value.toNat >>> (d.length.toNat - c.length.toNat) = c.value.toNat := by
  constructor
  · intro h
    have hle := h.length_le
    rw [length_bits, length_bits] at hle
    obtain ⟨rest, hrest⟩ := h
    refine ⟨hle, Nat.eq_of_testBit_eq fun i => ?_⟩
    rw [Nat.testBit_shiftRight]
    rcases Nat.lt_or_ge i c.length.toNat with hi | hi
    -- both numbers have the bit that the two lists have at the same place
    · have hget : d.bits[c.length.toNat - 1 - i]? = c.bits[c.length.toNat - 1 - i]? := by
        rw [← hrest, List.getElem?_append_left (by rw [length_bits]; omega)]
      rw [getElem?_bits (by omega), getElem?_bits (by omega), Option.some.injEq] at hget
      rw [show d.length.toNat - c.length.toNat + i =
        d.length.toNat - 1 - (c.length.toNat - 1 - i) by omega, hget]
      congr 1
      omega
    · rw [hc.testBit_eq_false hi, hd.testBit_eq_false (by omega)]
  · rintro ⟨hle, hvalue⟩
    rw [List.prefix_iff_getElem?]
    intro i hi
    rw [← List.getElem?_eq_getElem hi]
    rw [length_bits] at hi
    rw [getElem?_bits hi, getElem?_bits (by omega), ← hvalue, Nat.testBit_shiftRight]
    congr 2
    omega

lemma isPrefixOf_iff : c.isPrefixOf d = true ↔
    c.length.toNat ≤ d.length.toNat ∧
      d.value.toNat >>> (d.length.toNat - c.length.toNat) = c.value.toNat := by
  rw [isPrefixOf, Bool.and_eq_true, decide_eq_true_eq, beq_iff_eq, UInt8.le_iff_toNat_le]

/-- The test of two numbers finds out whether the bits of one codeword begin the other. -/
theorem isPrefixOf_eq_true_iff (hc : c.Fits) (hd : d.Fits) :
    c.isPrefixOf d = true ↔ c.bits <+: d.bits := by
  rw [bits_prefix_iff hc hd, isPrefixOf_iff]

/-- A codeword is determined by its bits. -/
theorem eq_of_bits_eq (hc : c.Fits) (hd : d.Fits) (h : c.bits = d.bits) : c = d := by
  have hlength := congrArg List.length h
  rw [length_bits, length_bits] at hlength
  have hvalue := ((bits_prefix_iff hc hd).1 (h ▸ List.prefix_rfl)).2
  rw [hlength, Nat.sub_self, Nat.shiftRight_zero] at hvalue
  exact eq_of_toNat_eq hvalue.symm hlength

/-! ### The codeword of some bits -/

lemma ofBits_concat (bits : List Bool) (bit : Bool) :
    ofBits (bits ++ [bit]) = (ofBits bits).extend bit := by
  rw [ofBits, List.foldl_append]
  rfl

lemma toNat_length_ofBits {bits : List Bool} (h : bits.length ≤ 32) :
    (ofBits bits).length.toNat = bits.length := by
  rw [← length_bits, bits_ofBits h]

/-- As long as there is room, no bit gets lost. -/
theorem fits_ofBits {bits : List Bool} (h : bits.length ≤ 32) : (ofBits bits).Fits := by
  refine ⟨by rw [toNat_length_ofBits h]; exact h, ?_⟩
  induction bits using List.reverseRecOn with
  | nil => decide
  | append_singleton bits bit ih =>
    rw [List.length_append, List.length_singleton] at h
    have hlt := ih (by omega)
    have hlength : (ofBits bits).length.toNat = bits.length := toNat_length_ofBits (by omega)
    have hbit := bit.toNat_lt
    rw [ofBits_concat, toNat_value_extend, length_extend (by omega), Nat.pow_succ]
    exact (Nat.mod_le _ _).trans_lt (by omega)

theorem ofBits_bits (hc : c.Fits) : ofBits c.bits = c :=
  eq_of_bits_eq (fits_ofBits hc.length_bits_le) hc (bits_ofBits hc.length_bits_le)

/-- The number that bits are the binary digits of, the most significant one first. -/
def numberOf (bits : List Bool) : Nat :=
  Nat.ofDigits 2 (bits.reverse.map Bool.toNat)

lemma numberOf_concat (bits : List Bool) (bit : Bool) :
    numberOf (bits ++ [bit]) = 2 * numberOf bits + bit.toNat := by
  simp [numberOf, Nat.ofDigits_cons, Nat.add_comm]

lemma numberOf_lt (bits : List Bool) : numberOf bits < 2 ^ bits.length := by
  have hdigits : ∀ d ∈ bits.reverse.map Bool.toNat, d < 2 := by
    simp only [List.mem_map]
    rintro _ ⟨bit, -, rfl⟩
    exact bit.toNat_lt
  simpa [numberOf] using Nat.ofDigits_lt_base_pow_length (by decide) hdigits

/-- As long as there is room, the number of a codeword is the one that its bits are the
digits of. -/
theorem toNat_value_ofBits {bits : List Bool} (h : bits.length ≤ 32) :
    (ofBits bits).value.toNat = numberOf bits := by
  induction bits using List.reverseRecOn with
  | nil => decide
  | append_singleton bits bit ih =>
    have hlt := numberOf_lt (bits ++ [bit])
    have hpow := Nat.pow_le_pow_right (n := 2) (by decide) h
    rw [List.length_append, List.length_singleton] at h
    rw [numberOf_concat] at hlt ⊢
    rw [ofBits_concat, toNat_value_extend, ih (by omega)]
    exact Nat.mod_eq_of_lt (by omega)

/-- Bits that follow others are the low digits of the number. -/
lemma numberOf_append (u v : List Bool) :
    numberOf (u ++ v) = 2 ^ v.length * numberOf u + numberOf v := by
  simp [numberOf, Nat.ofDigits_append, Nat.add_comm]

/-- The number of a codeword is the one that its bits are the digits of. -/
lemma numberOf_bits (hc : c.Fits) : numberOf c.bits = c.value.toNat := by
  rw [← toNat_value_ofBits hc.length_bits_le, ofBits_bits hc]

/-- The number of the first bits of a codeword is its number without the bits after them. -/
lemma numberOf_take_bits (hc : c.Fits) (n : Nat) :
    numberOf (c.bits.take n) = c.value.toNat / 2 ^ (c.length.toNat - n) := by
  have hdrop : (c.bits.drop n).length = c.length.toNat - n := by
    rw [List.length_drop, length_bits]
  have hsplit : c.value.toNat =
      2 ^ (c.length.toNat - n) * numberOf (c.bits.take n) + numberOf (c.bits.drop n) := by
    rw [← hdrop, ← numberOf_append, List.take_append_drop, numberOf_bits hc]
  have hlt := numberOf_lt (c.bits.drop n)
  rw [hdrop] at hlt
  rw [hsplit, Nat.mul_add_div (Nat.two_pow_pos _), Nat.div_eq_of_lt hlt, Nat.add_zero]

/-- The first `n` bits of a codeword are a greater number than `v` exactly if the codeword lies
beyond all the strings of its length that begin with the `n` bits of `v`. -/
lemma lt_numberOf_take_bits_iff (hc : c.Fits) {n v : Nat} :
    v < numberOf (c.bits.take n) ↔ 2 ^ (c.length.toNat - n) * (v + 1) ≤ c.value.toNat := by
  rw [numberOf_take_bits hc, ← Nat.succ_le_iff, Nat.le_div_iff_mul_le (Nat.two_pow_pos _),
    Nat.mul_comm]

end PrefixCode.Codeword
