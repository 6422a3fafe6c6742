/-
# Limits on a code

The bounds within which a code is accepted: those that every code has to keep, because of
the width of the words that hold it, and those that the caller may choose.
-/

namespace PrefixCode

/-- The greatest code length in the alphabets of DEFLATE. -/
def deflateMaxLength : UInt8 := 15

/-- The greatest code length of all: a codeword has to fit into 32 bits. -/
def supportedMaxLength : UInt8 := 32

/-- The greatest number of symbols: a symbol has to fit into 16 bits. -/
def maxSymbols : Nat := 65536

/-- What the caller asks of a code: a greatest code length, and whether every bit string
has to be decodable. -/
structure Limits where
  maxLength : UInt8
  requireComplete : Bool
  deriving DecidableEq

namespace Limits

/-- The limits of DEFLATE; incomplete codes are accepted. -/
def deflate : Limits := ⟨deflateMaxLength, false⟩

/-- The widest limits that any code can keep. -/
def widest : Limits := { deflate with maxLength := supportedMaxLength }

end Limits

end PrefixCode
