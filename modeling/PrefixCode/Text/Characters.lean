/-
# Classes of characters

A class of characters is written down as a list of inclusive ranges of code points.  White
space is such a class: the characters with the Unicode property White_Space, which separate the
items of a listing.  Together with underscores it may stand anywhere between the digits of a
bit text; any other character there is refused, and the first one in the text is named.
-/

namespace PrefixCode.Text

/-- Whether the code point of `c` lies in one of the inclusive ranges. -/
def inRanges (ranges : List (Nat × Nat)) (c : Char) : Bool :=
  ranges.any fun range => range.1 ≤ c.toNat && c.toNat ≤ range.2

theorem inRanges_eq_true_iff (ranges : List (Nat × Nat)) (c : Char) :
    inRanges ranges c = true ↔ ∃ range ∈ ranges, range.1 ≤ c.toNat ∧ c.toNat ≤ range.2 := by
  simp [inRanges]

/-! ### White space -/

/-- The code points with the property White_Space. -/
def blanks : List (Nat × Nat) :=
  [(0x9, 0xd), (0x20, 0x20), (0x85, 0x85), (0xa0, 0xa0), (0x1680, 0x1680), (0x2000, 0x200a),
    (0x2028, 0x2029), (0x202f, 0x202f), (0x205f, 0x205f), (0x3000, 0x3000)]

/-- Whether a character is white space. -/
def isBlank (c : Char) : Bool :=
  inRanges blanks c

/-! ### Bits -/

/-- Whether a character may stand between bits. -/
def isFiller (c : Char) : Bool :=
  isBlank c || c == '_'

/-- The bit that a digit stands for; any other character is returned as it is. -/
def bit : Char → Except Char Bool
  | '0' => .ok false
  | '1' => .ok true
  | c => .error c

/-- The bits of a bit text, or the first character that is neither a bit nor filler. -/
def bits (text : String) : Except Char (List Bool) :=
  (text.toList.filter fun c => !isFiller c).mapM bit

end PrefixCode.Text
