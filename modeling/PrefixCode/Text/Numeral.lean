/-
# Numerals

Decimal numerals are read with an optional sign, at least one ASCII digit and any number of
leading zeros, and are written without any of these extras.  Binary numerals are only
written.  The main statement is that a written decimal numeral reads back as its number.
-/

namespace PrefixCode.Text

/-- The number that a nonempty list of ASCII digits denotes. -/
def digits? (cs : List Char) : Option Nat :=
  if cs ≠ [] ∧ cs.all Char.isDigit then some (Nat.ofDigitChars 10 cs 0) else none

/-- The number that a numeral with an optional plus sign denotes. -/
def natural? : List Char → Option Nat
  | '+' :: cs => digits? cs
  | cs => digits? cs

/-- The number that a numeral with an optional plus or minus sign denotes. -/
def integer? : List Char → Option Int
  | '-' :: cs => (digits? cs).map fun n => -(n : Int)
  | cs => (natural? cs).map fun n => (n : Int)

/-- The number that a numeral denotes, provided it is at most `bound`. -/
def naturalUpTo? (bound : Nat) (cs : List Char) : Option Nat :=
  (natural? cs).filter fun n => n ≤ bound

/-- The decimal digits of a number, without leading zeros; zero is `0`. -/
def decimal (n : Nat) : String :=
  String.ofList (Nat.toDigits 10 n)

/-- The binary digits of a number, without leading zeros; zero is `0`. -/
def binary (n : Nat) : String :=
  String.ofList (Nat.toDigits 2 n)

theorem digits?_eq_some_iff {cs : List Char} {n : Nat} :
    digits? cs = some n ↔
      cs ≠ [] ∧ (∀ c ∈ cs, c.isDigit = true) ∧ Nat.ofDigitChars 10 cs 0 = n := by
  simp [digits?, and_assoc]

/-- A numeral that starts with a digit has no sign to be taken off. -/
theorem natural?_eq_digits? {cs : List Char} (h : ∀ c ∈ cs, c.isDigit = true) :
    natural? cs = digits? cs := by
  unfold natural?
  split
  · next cs => simp at h
  · rfl

/-- What is written in decimal reads back as its number. -/
theorem natural?_decimal (n : Nat) : natural? (decimal n).toList = some n := by
  have hd : ∀ c ∈ Nat.toDigits 10 n, c.isDigit = true := fun c hc =>
    Nat.isDigit_of_mem_toDigits (by decide) (by decide) hc
  rw [decimal, String.toList_ofList, natural?_eq_digits? hd, digits?_eq_some_iff]
  exact ⟨Nat.toDigits_ne_nil, hd, Nat.ofDigitChars_ten_toDigits⟩

end PrefixCode.Text
