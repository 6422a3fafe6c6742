/-
# Reading one symbol

A reader takes the bits of one codeword off the front of a bit string, and no bit more.
-/
import PrefixCode.Table

namespace PrefixCode.Table

/-- Goes on reading a codeword of which `code` has been read and which may have at most
`room` bits more. -/
def readFrom (table : Table) : Nat → Codeword → List Bool →
    Except DecodeError UInt16 × List Bool
  | 0, code, bits => (.error (.noSymbol code), bits)
  | _ + 1, _, [] => (.error .endOfInput, [])
  | room + 1, code, bit :: bits =>
    let code := code.extend bit
    if table.contains code then (table.get code, bits) else table.readFrom room code bits

/-- Reads one symbol, and returns it with the bits after its codeword. -/
def read (table : Table) (bits : List Bool) : Except DecodeError UInt16 × List Bool :=
  table.readFrom table.longest.toNat .empty bits

end PrefixCode.Table
