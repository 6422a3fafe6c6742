/-
# Bytes that are a text

Whether bytes are a text is decided by the bytes alone.  A character has one byte up to `7F`, or a
first byte that tells how many bytes with the bits `10` in front follow it.  Ranges of the second
byte leave out what is not a character: numbers that have a shorter form, surrogates, and what lies
beyond the last plane.  Such bytes are `WellFormed`, and exactly these are the bytes of a text
(`wellFormed_iff`).  What cannot be begun anew is not mended by a text in front of it
(`wellFormed_append_iff`).
-/
import PrefixCode.Proofs.Outcome

namespace Char

/-- Each number that a character may have is the number of one. -/
lemma exists_val_eq {n : Nat} (h : n.isValidChar) : ∃ c : Char, c.val.toNat = n :=
  ⟨Char.ofNatAux n h, rfl⟩

end Char

namespace PrefixCode.Text

/-! ### The bytes of one character -/

/-- A byte that goes on with a character. -/
def IsTrailing (b : UInt8) : Prop :=
  0x80 ≤ b ∧ b ≤ 0xBF

/-- The bytes of one character. -/
inductive IsCharacter : List UInt8 → Prop
  | one {a : UInt8} (ha : a ≤ 0x7F) : IsCharacter [a]
  | two {a b : UInt8} (ha : 0xC2 ≤ a ∧ a ≤ 0xDF) (hb : IsTrailing b) : IsCharacter [a, b]
  /-- Less than `A0` after `E0` has a shorter form, more than `9F` after `ED` is a surrogate. -/
  | three {a b c : UInt8} (ha : 0xE0 ≤ a ∧ a ≤ 0xEF) (hb : IsTrailing b) (hc : IsTrailing c)
      (hlong : a = 0xE0 → 0xA0 ≤ b) (hsurrogate : a = 0xED → b ≤ 0x9F) : IsCharacter [a, b, c]
  /-- Less than `90` after `F0` has a shorter form, more than `8F` after `F4` is in no plane. -/
  | four {a b c d : UInt8} (ha : 0xF0 ≤ a ∧ a ≤ 0xF4) (hb : IsTrailing b) (hc : IsTrailing c)
      (hd : IsTrailing d) (hlong : a = 0xF0 → 0x90 ≤ b) (hplane : a = 0xF4 → b ≤ 0x8F) :
      IsCharacter [a, b, c, d]

/-- The bytes that are written for a character are those of one character. -/
lemma isCharacter_utf8EncodeChar (c : Char) : IsCharacter (String.utf8EncodeChar c) := by
  have hvalid : c.val.toNat < 0xD800 ∨ 0xDFFF < c.val.toNat ∧ c.val.toNat < 0x110000 := c.valid
  rw [String.utf8EncodeChar]
  split
  · refine .one ?_
    simp only [UInt8.le_iff_toNat_le, UInt8.toNat_ofNat', UInt8.reduceToNat]
    omega
  split
  · refine .two ?_ ?_ <;>
    · simp only [IsTrailing, UInt8.le_iff_toNat_le, UInt8.toNat_ofNat', UInt8.reduceToNat]
      omega
  split
  · refine .three ?_ ?_ ?_ ?_ ?_ <;>
    · simp only [IsTrailing, UInt8.le_iff_toNat_le, ← UInt8.toNat_inj, UInt8.toNat_ofNat',
        UInt8.reduceToNat]
      omega
  · refine .four ?_ ?_ ?_ ?_ ?_ ?_ <;>
    · simp only [IsTrailing, UInt8.le_iff_toNat_le, ← UInt8.toNat_inj, UInt8.toNat_ofNat',
        UInt8.reduceToNat]
      omega

/-- The bytes of one character are those that are written for some character: its number is put
together from the low bits of each of them. -/
lemma IsCharacter.exists_utf8EncodeChar_eq {bytes : List UInt8} (h : IsCharacter bytes) :
    ∃ c : Char, String.utf8EncodeChar c = bytes := by
  cases h with
  | @one a ha =>
    simp only [UInt8.le_iff_toNat_le, UInt8.reduceToNat] at ha
    obtain ⟨c, hc⟩ := Char.exists_val_eq (n := a.toNat) (by simp only [Nat.isValidChar]; omega)
    refine ⟨c, ?_⟩
    rw [String.utf8EncodeChar, hc, if_pos ha, UInt8.ofNat_toNat]
  | @two a b ha hb =>
    simp only [IsTrailing, UInt8.le_iff_toNat_le, UInt8.reduceToNat] at ha hb
    obtain ⟨c, hc⟩ := Char.exists_val_eq (n := (a.toNat - 0xC0) * 64 + (b.toNat - 0x80))
      (by simp only [Nat.isValidChar]; omega)
    refine ⟨c, ?_⟩
    rw [String.utf8EncodeChar, hc, if_neg (by omega), if_pos (by omega)]
    simp only [List.cons.injEq, and_true, ← UInt8.toNat_inj, UInt8.toNat_ofNat']
    omega
  | @three a b d ha hb hd hlong hsurrogate =>
    simp only [IsTrailing, UInt8.le_iff_toNat_le, ← UInt8.toNat_inj, UInt8.reduceToNat] at *
    obtain ⟨c, hc⟩ := Char.exists_val_eq
      (n := (a.toNat - 0xE0) * 4096 + (b.toNat - 0x80) * 64 + (d.toNat - 0x80))
      (by simp only [Nat.isValidChar]; omega)
    refine ⟨c, ?_⟩
    rw [String.utf8EncodeChar, hc, if_neg (by omega), if_neg (by omega), if_pos (by omega)]
    simp only [List.cons.injEq, and_true, ← UInt8.toNat_inj, UInt8.toNat_ofNat']
    omega
  | @four a b d e ha hb hd he hlong hplane =>
    simp only [IsTrailing, UInt8.le_iff_toNat_le, ← UInt8.toNat_inj, UInt8.reduceToNat] at *
    obtain ⟨c, hc⟩ := Char.exists_val_eq
      (n := (a.toNat - 0xF0) * 262144 + (b.toNat - 0x80) * 4096 + (d.toNat - 0x80) * 64 +
        (e.toNat - 0x80))
      (by simp only [Nat.isValidChar]; omega)
    refine ⟨c, ?_⟩
    rw [String.utf8EncodeChar, hc, if_neg (by omega), if_neg (by omega), if_neg (by omega)]
    simp only [List.cons.injEq, and_true, ← UInt8.toNat_inj, UInt8.toNat_ofNat']
    omega

lemma isCharacter_iff {bytes : List UInt8} :
    IsCharacter bytes ↔ ∃ c : Char, String.utf8EncodeChar c = bytes := by
  refine ⟨IsCharacter.exists_utf8EncodeChar_eq, ?_⟩
  rintro ⟨c, rfl⟩
  exact isCharacter_utf8EncodeChar c

/-! ### The bytes of a text -/

/-- Bytes that are characters one after the other. -/
inductive WellFormed : List UInt8 → Prop
  | nil : WellFormed []
  | cons {bytes rest : List UInt8} (hc : IsCharacter bytes) (h : WellFormed rest) :
      WellFormed (bytes ++ rest)

lemma wellFormed_iff_flatMap {bytes : List UInt8} :
    WellFormed bytes ↔ ∃ cs : List Char, cs.flatMap String.utf8EncodeChar = bytes := by
  constructor
  · intro h
    induction h with
    | nil => exact ⟨[], rfl⟩
    | cons hc h ih =>
      obtain ⟨c, rfl⟩ := isCharacter_iff.1 hc
      obtain ⟨cs, rfl⟩ := ih
      exact ⟨c :: cs, rfl⟩
  · rintro ⟨cs, rfl⟩
    induction cs with
    | nil => exact .nil
    | cons c cs ih => exact .cons (isCharacter_utf8EncodeChar c) ih

/-- The bytes of a text are those of its characters. -/
lemma toList_data_toUTF8 (text : String) :
    text.toUTF8.data.toList = text.toList.flatMap String.utf8EncodeChar := by
  rw [String.toUTF8_eq_toByteArray, ← String.utf8Encode_toList, List.utf8Encode,
    List.toList_data_toByteArray]

/-- Exactly the well-formed bytes are the bytes of a text. -/
theorem wellFormed_iff {bytes : ByteArray} :
    WellFormed bytes.data.toList ↔ ∃ text : String, bytes = text.toUTF8 := by
  rw [wellFormed_iff_flatMap]
  constructor
  · rintro ⟨cs, hcs⟩
    refine ⟨String.ofList cs, ByteArray.ext (Array.toList_inj.1 ?_)⟩
    rw [toList_data_toUTF8, String.toList_ofList, hcs]
  · rintro ⟨text, rfl⟩
    exact ⟨text.toList, (toList_data_toUTF8 text).symm⟩

/-- Bytes that are not well formed are no text. -/
theorem fromUTF8?_eq_none_iff {bytes : ByteArray} :
    String.fromUTF8? bytes = none ↔ ¬ WellFormed bytes.data.toList := by
  rw [wellFormed_iff, Option.eq_none_iff_forall_ne_some, not_exists]
  simp only [ne_eq, fromUTF8?_eq_some_iff]

lemma wellFormed_iff_isValidUTF8 {bytes : ByteArray} :
    WellFormed bytes.data.toList ↔ bytes.IsValidUTF8 := by
  rw [wellFormed_iff]
  constructor
  · rintro ⟨text, rfl⟩
    exact text.isValidUTF8
  · intro h
    exact ⟨⟨bytes, h⟩, rfl⟩

/-- A text in front of bytes does not make them well formed. -/
theorem wellFormed_append_iff (text : String) {bytes : ByteArray} :
    WellFormed (text.toUTF8 ++ bytes).data.toList ↔ WellFormed bytes.data.toList := by
  rw [wellFormed_iff_isValidUTF8, wellFormed_iff_isValidUTF8, String.toUTF8_eq_toByteArray,
    ← String.utf8Encode_toList]
  induction text.toList with
  | nil => rw [List.utf8Encode_nil, ByteArray.empty_append]
  | cons c cs ih =>
    rw [List.utf8Encode_cons, ByteArray.append_assoc,
      ByteArray.isValidUTF8_utf8Encode_singleton_append_iff, ih]

end PrefixCode.Text
