/-
# Errors

The causes for which code lengths are refused and bits cannot be decoded, and the words in
which each cause is reported.
-/
import PrefixCode.Codeword
import PrefixCode.Text.Quoted

namespace PrefixCode

/-- Why a list of code lengths does not describe a code. -/
inductive LengthsError
  /-- No symbol has a codeword. -/
  | emptyAlphabet
  /-- A symbol, the first such one, asks for a longer codeword than is accepted. -/
  | lengthTooLong (symbol : Nat) (length max : UInt8)
  /-- The alphabet is too large. -/
  | tooManySymbols (count max : Nat)
  /-- There are not as many bit strings of this length as the lengths ask for. -/
  | oversubscribed (length : UInt8)
  /-- Some bit strings of the greatest length start with no codeword. -/
  | incomplete (length : UInt8) (unused total : UInt64)
  /-- The greatest length asked for is not one that any code can have. -/
  | unsupportedMaximum (max : UInt8)
  /-- An item in the text of a listing is no code length. -/
  | malformed (item : String)
  deriving DecidableEq

/-- Why bits cannot be decoded. -/
inductive DecodeError
  /-- No symbol has this codeword. -/
  | noSymbol (code : Codeword)
  /-- The bits end within a codeword. -/
  | endOfInput
  deriving DecidableEq

/-- Why a listing of code lengths cannot be read from bytes. -/
inductive ListingError
  /-- The bytes are not the UTF-8 form of a text. -/
  | notUnicode
  /-- The text lists no code lengths. -/
  | lengths (error : LengthsError)
  deriving DecidableEq

namespace LengthsError

/-- What is wrong with the lengths. -/
def reason : LengthsError → String
  | emptyAlphabet => "empty alphabet: no symbol has a nonzero code length"
  | lengthTooLong symbol length max =>
    "symbol " ++ Text.decimal symbol ++ " has code length " ++ Text.decimal length.toNat
      ++ " (max " ++ Text.decimal max.toNat ++ ")"
  | tooManySymbols count max =>
    Text.decimal count ++ " symbols exceeds the maximum of " ++ Text.decimal max
  | oversubscribed length =>
    "Huffman code oversubscribed: more " ++ Text.decimal length.toNat
      ++ "-bit codes than possible"
  | incomplete length unused total =>
    "Huffman code incomplete: " ++ Text.decimal unused.toNat ++ " of "
      ++ Text.decimal total.toNat ++ " " ++ Text.decimal length.toNat
      ++ "-bit codes unassigned"
  | unsupportedMaximum max =>
    "unsupported maximum code length " ++ Text.decimal max.toNat ++ " (must be 1-32)"
  | malformed item => "malformed code length " ++ Text.quote '"' item.toList

/-- The whole report. -/
def message (error : LengthsError) : String :=
  "Invalid code lengths: " ++ error.reason

end LengthsError

/-- The report of bits that cannot be decoded. -/
def DecodeError.message : DecodeError → String
  | noSymbol code =>
    "No symbol for " ++ Text.decimal code.length.toNat ++ "-bit code 0b"
      ++ Text.binary code.value.toNat
  | endOfInput => "Unexpected end of input"

/-- The report of a listing that cannot be read. -/
def ListingError.message : ListingError → String
  | notUnicode => "I/O error: stream did not contain valid UTF-8"
  | lengths error => error.message

end PrefixCode
