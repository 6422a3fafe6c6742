/-
# Quoted text

A piece of input that is shown in a message stands between two quotation marks, and what
could not be read there as it is gets an escape: the mark itself and the backslash, the
usual control characters by their letter, and all other characters that have no visible
form, or that would combine with the character before them, by their code point.
-/
import PrefixCode.Text.Invisible
import PrefixCode.Text.Extending

namespace PrefixCode.Text

/-- The code point of a character in lower-case hexadecimal digits, between braces. -/
def codePointEscape (c : Char) : List Char :=
  ['\\', 'u', '\x7b'] ++ Nat.toDigits 16 c.toNat ++ ['\x7d']

/-- How one character is written between two quotation marks `mark`. -/
def escape (mark c : Char) : List Char :=
  if c = '\x00' then ['\\', '0']
  else if c = '\t' then ['\\', 't']
  else if c = '\n' then ['\\', 'n']
  else if c = '\r' then ['\\', 'r']
  else if c = '\\' || c = mark then ['\\', c]
  else if isInvisible c || isExtending c then codePointEscape c
  else [c]

/-- A text between two quotation marks `mark`. -/
def quote (mark : Char) (text : List Char) : String :=
  String.ofList ([mark] ++ text.flatMap (escape mark) ++ [mark])

end PrefixCode.Text
