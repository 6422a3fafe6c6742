/-
# Codewords

A codeword is a string of at most 32 bits, kept as a number together with its length.  The
bits are the low bits of the number, the most significant one first: this is the order in
which a decoder meets them.

Three forms of one codeword are related here: the list of its bits, the number that a
decoder accumulates bit by bit, and the text of zeros and ones in which it is printed.
-/
import PrefixCode.Text.Numeral

namespace PrefixCode

/-- A string of `length` bits: the low bits of `value`, most significant bit first. -/
structure Codeword where
  value : UInt32
  length : UInt8
  deriving DecidableEq

namespace Codeword

/-- The codeword without bits. -/
def empty : Codeword := ⟨0, 0⟩

/-- The codeword `c` followed by one more bit. -/
def extend (c : Codeword) (bit : Bool) : Codeword :=
  ⟨c.value <<< 1 ||| bit.toUInt32, c.length + 1⟩

/-- The codeword that a decoder has accumulated after these bits. -/
def ofBits (bits : List Bool) : Codeword :=
  bits.foldl extend empty

/-- The bits of a codeword in the order in which they are sent. -/
def bits (c : Codeword) : List Bool :=
  (List.range c.length.toNat).reverse.map c.value.toNat.testBit

/-- The number whose low bits are the bits of `c` in the opposite order, for a writer that
starts with the least significant bit. -/
def reversed (c : Codeword) : UInt32 :=
  UInt32.ofBitVec (c.value.toBitVec.reverse >>> (32 - c.length.toNat))

/-- Whether `d` begins with the bits of `c`: dropping the extra bits of `d` leaves `c`. -/
def isPrefixOf (c d : Codeword) : Bool :=
  c.length ≤ d.length && d.value.toNat >>> (d.length.toNat - c.length.toNat) == c.value.toNat

/-- The binary digits of the value, filled up with zeros on the left to the length. -/
def text (c : Codeword) : String :=
  String.ofList ((Nat.toDigits 2 c.value.toNat).leftpad c.length.toNat '0')

/-! ### Bits and lengths -/

theorem length_bits (c : Codeword) : c.bits.length = c.length.toNat := by
  simp [bits]

theorem bits_empty : empty.bits = [] := rfl

theorem length_extend {c : Codeword} (h : c.length.toNat < 255) (bit : Bool) :
    (c.extend bit).length.toNat = c.length.toNat + 1 := by
  simp [extend, UInt8.toNat_add]
  omega

/-- Appending a bit doubles the number and adds the bit; only a bit shifted out of the word
is lost. -/
theorem toNat_value_extend (c : Codeword) (bit : Bool) :
    (c.extend bit).value.toNat = (2 * c.value.toNat + bit.toNat) % 4294967296 := by
  have hshift : (c.value.toNat <<< 1) % 4294967296 = (c.value.toNat % 2147483648) <<< 1 := by
    rw [Nat.shiftLeft_eq, Nat.shiftLeft_eq]
    omega
  have hbit : bit.toNat < 2 ^ 1 := by cases bit <;> decide
  have hor := Nat.shiftLeft_add_eq_or_of_lt hbit (c.value.toNat % 2147483648)
  have hval : (c.extend bit).value.toNat = (c.value.toNat <<< 1) % 4294967296 ||| bit.toNat := by
    cases bit <;> simp [extend, Bool.toUInt32]
  rw [hval, hshift, ← hor, Nat.shiftLeft_eq]
  omega

/-- As long as there is room, appending a bit appends it to the list of bits. -/
theorem bits_extend {c : Codeword} (h : c.length.toNat < 32) (bit : Bool) :
    (c.extend bit).bits = c.bits ++ [bit] := by
  rw [bits, length_extend (by omega), List.range_succ_eq_map]
  simp only [List.reverse_cons, List.map_append, ← List.map_reverse, List.map_map, bits]
  congr 1
  · apply List.map_congr_left
    intro i hi
    have hi : i < c.length.toNat := by simpa using hi
    have hdiv : (c.extend bit).value.toNat / 2 = c.value.toNat % 2147483648 := by
      rw [toNat_value_extend]
      have := bit.toNat_lt
      omega
    rw [Function.comp, Nat.testBit_succ, hdiv, show 2147483648 = 2 ^ 31 from rfl,
      Nat.testBit_mod_two_pow]
    simp
    omega
  · simp only [List.map_cons, List.map_nil, Nat.testBit_zero, toNat_value_extend]
    cases bit <;> simp

/-- Bits appended one after the other, as long as there is room, are appended to the list
of bits. -/
theorem bits_foldl_extend {c : Codeword} {bits : List Bool}
    (h : c.length.toNat + bits.length ≤ 32) : (bits.foldl extend c).bits = c.bits ++ bits := by
  induction bits generalizing c with
  | nil => simp
  | cons bit bits ih =>
    rw [List.length_cons] at h
    have hlen := length_extend (c := c) (by omega) bit
    rw [List.foldl_cons, ih (by omega), bits_extend (by omega)]
    simp

/-- What a decoder has accumulated are the bits that it has read. -/
theorem bits_ofBits {bits : List Bool} (h : bits.length ≤ 32) : (ofBits bits).bits = bits := by
  have hlen : empty.length.toNat = 0 := rfl
  rw [ofBits, bits_foldl_extend (by omega), bits_empty, List.nil_append]

end Codeword

end PrefixCode
