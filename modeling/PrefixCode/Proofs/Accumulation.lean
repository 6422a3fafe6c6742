/-
# Accumulating a codeword

A decoder shifts the bits of a codeword one by one into a word, `shiftIn`.  The word is as wide as
the longest codeword, so there is no spare bit: what keeps a bit from being shifted out is that less
than 32 of them have been read before (`toNat_shiftIn_of_lt`).  Thus the value of a codeword, the
word into which its bits are shifted and the text in which it is printed are three forms of one
number, also where the value has bits beyond the length of the codeword, which are no bits of it.
-/
import PrefixCode.Proofs.BitText

namespace PrefixCode.Codeword

/-! ### Shifting bits in -/

/-- Makes room for one bit at the low end of a word and puts it there. -/
def shiftIn (value : UInt32) (bit : Bool) : UInt32 :=
  value <<< 1 ||| bit.toUInt32

/-- What a decoder has accumulated are the bits that were shifted into a word, and how many. -/
theorem ofBits_eq (bits : List Bool) :
    ofBits bits = ⟨bits.foldl shiftIn 0, bits.length.toUInt8⟩ := by
  induction bits using List.reverseRecOn with
  | nil => rfl
  | append_singleton bits bit ih =>
    rw [ofBits_concat, ih, List.foldl_concat, List.length_append, List.length_singleton]
    simp [extend, shiftIn]

/-- The word into which bits are shifted is the number that they are the digits of. -/
lemma toNat_foldl_shiftIn {bits : List Bool} (h : bits.length ≤ 32) :
    (bits.foldl shiftIn 0).toNat = numberOf bits := by
  rw [← toNat_value_ofBits h, ofBits_eq]

/-- As long as there is room, nothing is shifted out. -/
lemma toNat_shiftIn_of_lt {bits : List Bool} (h : bits.length < 32) (bit : Bool) :
    (shiftIn (bits.foldl shiftIn 0) bit).toNat =
      2 * (bits.foldl shiftIn 0).toNat + bit.toNat := by
  have hconcat := @toNat_foldl_shiftIn (bits ++ [bit]) (by simp; omega)
  rwa [List.foldl_concat, numberOf_concat, ← toNat_foldl_shiftIn h.le] at hconcat

/-! ### The value of a codeword -/

/-- The low bits of a number are the digits of what is left of it. -/
lemma numberOf_map_testBit (n k : Nat) :
    numberOf ((List.range k).reverse.map n.testBit) = n % 2 ^ k := by
  induction k generalizing n with
  | zero => rw [Nat.pow_zero, Nat.mod_one]; rfl
  | succ k ih =>
    -- the lowest digit is the last one, and the others belong to half of the number
    have hdigits : (List.range (k + 1)).reverse.map n.testBit =
        (List.range k).reverse.map (n / 2).testBit ++ [n.testBit 0] := by
      rw [List.range_succ_eq_map, List.reverse_cons, List.map_append, ← List.map_reverse,
        List.map_map, List.map_singleton]
      simp only [Function.comp_def, Nat.testBit_succ]
    rw [hdigits, numberOf_concat, ih, Nat.pow_succ', Nat.mod_mul, Nat.testBit_zero]
    rcases Nat.mod_two_eq_zero_or_one n with h | h <;> simp [h, Nat.add_comm]

/-- The bits of a codeword shifted into a word are its value without the bits beyond its length. -/
theorem toNat_foldl_shiftIn_bits {c : Codeword} (h : c.length.toNat ≤ 32) :
    (c.bits.foldl shiftIn 0).toNat = c.value.toNat % 2 ^ c.length.toNat := by
  rw [toNat_foldl_shiftIn (by rwa [length_bits]), bits, numberOf_map_testBit]

/-- **Bits, value and text of a codeword are three forms of one number.**  The bits of a codeword,
shifted into a word one after the other, give its value up to its length, and on the way no bit gets
lost; bits that were shifted into a word are the bits of the codeword that it is the value of; and a
codeword that is not empty and has no bits beyond its length is printed as one digit for each of its
bits. -/
theorem bits_value_and_text_agree :
    (∀ c : Codeword, c.length.toNat ≤ 32 →
      (c.bits.foldl shiftIn 0).toNat = c.value.toNat % 2 ^ c.length.toNat ∧
      ofBits c.bits = ⟨c.bits.foldl shiftIn 0, c.length⟩ ∧
      ∀ read bit, read ++ [bit] <+: c.bits →
        (shiftIn (read.foldl shiftIn 0) bit).toNat =
          2 * (read.foldl shiftIn 0).toNat + bit.toNat) ∧
    (∀ bits : List Bool, bits.length ≤ 32 →
      (⟨bits.foldl shiftIn 0, bits.length.toUInt8⟩ : Codeword).bits = bits) ∧
    ∀ c : Codeword, 1 ≤ c.length.toNat → c.length.toNat ≤ 32 →
      c.value.toNat < 2 ^ c.length.toNat →
      c.text.length = c.length.toNat ∧
        c.text.toList = c.bits.map fun bit => if bit then '1' else '0' := by
  refine ⟨fun c hc => ⟨toNat_foldl_shiftIn_bits hc, ?_, fun read bit hread => ?_⟩,
    fun bits hbits => ?_, fun c hpos hc hvalue => ?_⟩
  · rw [ofBits_eq, length_bits]
    simp
  · have hlength := hread.length_le
    rw [List.length_append, List.length_singleton, length_bits] at hlength
    exact toNat_shiftIn_of_lt (by omega) bit
  · rw [← ofBits_eq, bits_ofBits hbits]
  · have htext := toList_text ⟨hc, hvalue⟩ hpos
    refine ⟨?_, htext⟩
    rw [← String.length_toList, htext, List.length_map, length_bits]

/-- A value with a bit beyond the length of its codeword, the bits of a codeword that fills a word,
and a text with a zero in front. -/
theorem forms_of_three_codewords :
    ((⟨14, 3⟩ : Codeword).bits.foldl shiftIn 0).toNat = 14 % 2 ^ 3 ∧
    (⟨4294967294, 32⟩ : Codeword).bits = List.replicate 31 true ++ [false] ∧
    (⟨2, 3⟩ : Codeword).text.length = 3 ∧ (⟨2, 3⟩ : Codeword).text.toList = ['0', '1', '0'] := by
  have hfold : (⟨4294967294, 32⟩ : Codeword) =
      ⟨(List.replicate 31 true ++ [false]).foldl shiftIn 0,
        (List.replicate 31 true ++ [false]).length.toUInt8⟩ := by decide +kernel
  refine ⟨(bits_value_and_text_agree.1 ⟨14, 3⟩ (by decide)).1, ?_,
    bits_value_and_text_agree.2.2 ⟨2, 3⟩ (by decide) (by decide) (by decide)⟩
  rw [hfold]
  exact bits_value_and_text_agree.2.1 _ (by decide)

end PrefixCode.Codeword
