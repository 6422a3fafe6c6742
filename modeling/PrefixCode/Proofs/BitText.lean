/-
# Bits as text

A codeword is printed as a numeral with zeros in front of it, and a bit text is read character by
character.  Both have to do with the word of digits, one for each bit: the codeword is printed as
the word of its bits (`toList_text`), and a text has the bits of a word exactly if the word is left
over when the filler is taken out (`bits_eq_ok_iff`).  To be left over when filler is taken out is
to be filled up with it (`filled_iff`).  A text that has no bits is refused for the first character
that may not stand in it (`bits_eq_error_iff`).
-/
import PrefixCode.Proofs.Codeword
import PrefixCode.Proofs.Except
import PrefixCode.Text.Characters

namespace PrefixCode

/-! ### The digits of a number -/

namespace Text

variable {k n : Nat}

/-- The digit for a bit. -/
def digit (b : Bool) : Char :=
  if b then '1' else '0'

lemma digit_eq_zero_or_one (b : Bool) : digit b = '0' ∨ digit b = '1' := by
  cases b <;> simp [digit]

lemma digitChar_mod_two (n : Nat) : (n % 2).digitChar = digit (n.testBit 0) := by
  rw [Nat.testBit_zero]
  rcases Nat.mod_two_eq_zero_or_one n with h | h <;> rw [h] <;> rfl

/-- The last digit of a numeral that is filled up can be taken off. -/
lemma leftpad_toDigits_two (hk : 0 < k) (n : Nat) :
    (Nat.toDigits 2 n).leftpad (k + 1) '0' =
      (Nat.toDigits 2 (n / 2)).leftpad k '0' ++ [digit (n.testBit 0)] := by
  rw [← digitChar_mod_two, Nat.toDigits_eq_if Nat.one_lt_two]
  split
  -- there are only zeros in front of a single digit
  · rename_i hn
    obtain ⟨k, rfl⟩ := Nat.exists_eq_add_of_lt hk
    rw [Nat.div_eq_of_lt hn, Nat.mod_eq_of_lt hn, Nat.toDigits_zero, Nat.zero_add]
    simp [List.leftpad, List.replicate_succ']
  · rw [List.leftpad, List.leftpad, List.length_append, List.length_singleton,
      Nat.add_sub_add_right, List.append_assoc]

/-- A numeral that is filled up with zeros has the bits of the number as its digits, the most
significant one first. -/
theorem leftpad_toDigits_eq_map (hk : 0 < k) (hn : n < 2 ^ k) :
    (Nat.toDigits 2 n).leftpad k '0' =
      (List.range k).reverse.map fun i => digit (n.testBit i) := by
  induction k, hk using Nat.le_induction generalizing n with
  | base =>
    change n < 2 at hn
    rw [Nat.toDigits_of_lt_base hn]
    obtain rfl | rfl := Nat.le_one_iff_eq_zero_or_eq_one.1 (Nat.le_of_lt_succ hn) <;> rfl
  | succ k hk ih =>
    have hhalf : n / 2 < 2 ^ k := by
      rw [Nat.pow_succ] at hn
      omega
    rw [leftpad_toDigits_two hk, ih hhalf, List.range_succ_eq_map]
    simp only [List.reverse_cons, List.map_append, ← List.map_reverse, List.map_map,
      List.map_singleton, Function.comp_def, Nat.testBit_succ]

end Text

/-- A codeword is printed as the word of its bits. -/
theorem Codeword.toList_text {c : Codeword} (h : c.Fits) (hc : 0 < c.length.toNat) :
    c.text.toList = c.bits.map Text.digit := by
  rw [text, String.toList_ofList, Text.leftpad_toDigits_eq_map hc h.value_lt, bits, List.map_map]
  rfl

/-! ### The bits of a text -/

namespace Text

variable {word text : List Char} {bs : List Bool}

lemma bit_eq_ok_iff {c : Char} {b : Bool} : bit c = .ok b ↔ c = digit b := by
  unfold bit
  split
  · cases b <;> decide
  · cases b <;> decide
  · rename_i hzero hone
    cases b with
    | false => exact ⟨nofun, fun h => absurd h hzero⟩
    | true => exact ⟨nofun, fun h => absurd h hone⟩

/-- The bits of a word are those that it has the digits of. -/
lemma mapM_bit_eq_ok_iff : word.mapM bit = .ok bs ↔ word = bs.map digit := by
  induction word generalizing bs with
  | nil => simp [pure, Except.pure, eq_comm]
  | cons c word ih =>
    simp only [Except.mapM_cons_eq_ok_iff, bit_eq_ok_iff, ih]
    constructor
    · rintro ⟨b, bs, rfl, rfl, rfl⟩
      rfl
    · intro h
      obtain ⟨b, bs, rfl, rfl, rfl⟩ := List.map_eq_cons_iff.1 h.symm
      exact ⟨b, bs, rfl, rfl, rfl⟩

/-- A text has the bits whose word is left over when the filler is taken out. -/
theorem bits_eq_ok_iff {text : String} :
    bits text = .ok bs ↔ (text.toList.filter fun c => !isFiller c) = bs.map digit :=
  mapM_bit_eq_ok_iff

lemma isFiller_digit (b : Bool) : isFiller (digit b) = false := by
  cases b <;> decide

/-! ### Filler -/

/-- The text is the word with filler put in anywhere. -/
inductive Filled : List Char → List Char → Prop
  | nil : Filled [] []
  | keep (c : Char) {word text : List Char} (h : Filled word text) : Filled (c :: word) (c :: text)
  | fill {c : Char} (hc : isFiller c) {word text : List Char} (h : Filled word text) :
      Filled word (c :: text)

/-- A word without filler is what is left of a text that it is filled up to. -/
theorem filled_iff (hword : ∀ c ∈ word, isFiller c = false) :
    Filled word text ↔ (text.filter fun c => !isFiller c) = word := by
  constructor
  · intro h
    induction h with
    | nil => rfl
    | keep c h ih =>
      obtain ⟨hc, hword⟩ := List.forall_mem_cons.1 hword
      rw [List.filter_cons_of_pos (by simp [hc]), ih hword]
    | fill hc h ih => rw [List.filter_cons_of_neg (by simp [hc]), ih hword]
  · rintro rfl
    clear hword
    induction text with
    | nil => exact .nil
    | cons c text ih =>
      by_cases hc : isFiller c
      · rw [List.filter_cons_of_neg (by simp [hc])]
        exact ih.fill hc
      · rw [List.filter_cons_of_pos (by simp [hc])]
        exact ih.keep c

/-- A text has the bits whose word it is filled up from. -/
theorem bits_eq_ok_iff_filled {text : String} :
    bits text = .ok bs ↔ Filled (bs.map digit) text.toList := by
  rw [bits_eq_ok_iff, filled_iff (List.forall_mem_map.2 fun b _ => isFiller_digit b)]

/-! ### Characters that are no bits -/

/-- A character that may stand in a bit text: a bit, an underscore or white space. -/
def IsBitOrFiller (c : Char) : Prop :=
  c = '0' ∨ c = '1' ∨ c = '_' ∨ isBlank c = true

instance (c : Char) : Decidable (IsBitOrFiller c) :=
  inferInstanceAs (Decidable (_ ∨ _))

/-- The first character that may not stand in a bit text. -/
def firstOther? (text : String) : Option Char :=
  text.toList.find? fun c => ¬ IsBitOrFiller c

variable {c : Char}

lemma bit_eq_error (h : ¬ IsBitOrFiller c) : bit c = .error c := by
  unfold bit
  split
  · exact absurd (Or.inl rfl) h
  · exact absurd (Or.inr (Or.inl rfl)) h
  · rfl

lemma isFiller_eq_false (h : ¬ IsBitOrFiller c) : isFiller c = false := by
  rw [← Bool.not_eq_true, isFiller, Bool.or_eq_true, beq_iff_eq]
  rintro (hblank | hscore)
  · exact h (Or.inr (Or.inr (Or.inr hblank)))
  · exact h (Or.inr (Or.inr (Or.inl hscore)))

/-- A character that is no filler and may stand in a bit text is a bit. -/
lemma IsBitOrFiller.exists_eq_digit (h : IsBitOrFiller c) (hc : isFiller c = false) :
    ∃ b, c = digit b := by
  rcases h with rfl | rfl | rfl | hblank
  · exact ⟨false, rfl⟩
  · exact ⟨true, rfl⟩
  · exact absurd hc (by decide)
  · rw [isFiller, hblank, Bool.true_or] at hc
    cases hc

/-- A text is refused for the first character that may not stand in it. -/
theorem bits_eq_error_iff {text : String} :
    bits text = .error c ↔ firstOther? text = some c := by
  rw [bits, firstOther?]
  induction text.toList with
  | nil => exact ⟨nofun, nofun⟩
  | cons d cs ih =>
    by_cases hd : IsBitOrFiller d
    · rw [List.find?_cons_of_neg (by simpa using hd), ← ih]
      by_cases hfill : isFiller d = true
      · rw [List.filter_cons_of_neg (by simp [hfill])]
      · rw [Bool.not_eq_true] at hfill
        obtain ⟨b, rfl⟩ := hd.exists_eq_digit hfill
        rw [List.filter_cons_of_pos (by simp [hfill]), List.mapM_cons, bit_eq_ok_iff.2 rfl]
        cases (cs.filter fun c => !isFiller c).mapM bit <;>
          simp [bind, Except.bind, pure, Except.pure]
    · rw [List.find?_cons_of_pos (by simpa using hd),
        List.filter_cons_of_pos (by simp [isFiller_eq_false hd]), List.mapM_cons, bit_eq_error hd]
      simp [bind, Except.bind]

lemma exists_firstOther?_eq_some {text : String} (h : ∃ c ∈ text.toList, ¬ IsBitOrFiller c) :
    ∃ c, firstOther? text = some c := by
  rw [← Option.isSome_iff_exists, firstOther?, List.find?_isSome]
  simpa using h

end Text

end PrefixCode
