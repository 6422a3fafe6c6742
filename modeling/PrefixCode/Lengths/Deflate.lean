/-
# The fixed codes of DEFLATE

DEFLATE fixes two codes in advance: one for literals and match lengths, in which symbols
that are met more often have shorter codewords, and one for match distances, in which all
codewords have five bits.  Both codes are complete, and both have symbols at the end of the
alphabet that never occur in data.
-/
import PrefixCode.Table

namespace PrefixCode.Deflate

/-- The number of symbols for literals and match lengths. -/
def literalSymbols : Nat := 288

/-- The number of symbols for match distances. -/
def distanceSymbols : Nat := 32

/-- The code lengths of the literals and match lengths. -/
def literalLengths : List UInt8 :=
  List.replicate 144 8 ++ List.replicate 112 9 ++ List.replicate 24 7 ++ List.replicate 8 8

/-- The code lengths of the match distances. -/
def distanceLengths : List UInt8 :=
  List.replicate distanceSymbols 5

example : literalLengths.length = literalSymbols := by
  decide +kernel

/-- The lengths of the literal code describe a code. -/
theorem literalLengths_accepted :
    (Table.ofLengths .deflate literalLengths).toOption.isSome = true := by
  decide +kernel

/-- The lengths of the distance code describe a code. -/
theorem distanceLengths_accepted :
    (Table.ofLengths .deflate distanceLengths).toOption.isSome = true := by
  decide +kernel

/-- The table of the code for literals and match lengths. -/
def literalTable : Table :=
  (Table.ofLengths .deflate literalLengths).toOption.get literalLengths_accepted

/-- The table of the code for match distances. -/
def distanceTable : Table :=
  (Table.ofLengths .deflate distanceLengths).toOption.get distanceLengths_accepted

end PrefixCode.Deflate
