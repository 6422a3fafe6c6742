/-
# Running the command

A run gets the code lengths, builds the table of their code, and prints the code or decodes
a bit text.  What it prints is determined by the invocation and by what its inputs hold.
Whatever fails is reported on standard error, and then nothing is printed.
-/
import PrefixCode.Command.Invocation
import PrefixCode.Decoder
import PrefixCode.Lengths.Deflate
import PrefixCode.Lengths.Listing
import PrefixCode.Text.Characters

namespace PrefixCode.Command

/-! ### Inputs and replies -/

/-- Why the operating system refuses a request: its words and its number for the cause. -/
structure SystemFault where
  words : String
  number : Nat
  deriving DecidableEq

/-- What comes of reading an input to its end. -/
inductive Reading
  | bytes (content : ByteArray)
  | notOpened (fault : SystemFault)
  | notRead (fault : SystemFault)

/-- What a run can read. -/
structure Inputs where
  standardInput : Reading
  file : String → Reading

/-- What a run leaves behind. -/
structure Reply where
  status : Nat
  output : String
  errors : String
  deriving DecidableEq

/-- Why a run fails. -/
inductive Failure
  /-- The file with the listing cannot be opened. -/
  | notOpened (fault : SystemFault)
  /-- The input with the listing cannot be read. -/
  | notRead (fault : SystemFault)
  /-- The input holds no listing. -/
  | listing (error : ListingError)
  /-- The lengths do not describe a code. -/
  | lengths (error : LengthsError)
  /-- A character in the bit text is no bit. -/
  | notBit (c : Char)
  /-- The bits cannot be decoded. -/
  | undecodable (error : DecodeError)

/-! ### Texts -/

/-- The report of a request that the operating system refuses. -/
def SystemFault.message (fault : SystemFault) : String :=
  fault.words ++ " (os error " ++ Text.decimal fault.number ++ ")"

/-- The report of a failure. -/
def Failure.message : Failure → String
  | notOpened fault => fault.message
  | notRead fault => "I/O error: " ++ fault.message
  | listing error => error.message
  | lengths error => error.message
  | notBit c => "invalid bit " ++ Text.quote '\'' [c] ++ " (expected 0 or 1)"
  | undecodable error => error.message

/-- The exit status of a failure: bits that cannot be decoded are told from all else. -/
def Failure.status : Failure → Nat
  | undecodable _ => 1
  | _ => 2

/-- The line for a symbol in the printed code: the symbol, the length of its codeword and
the codeword. -/
def codeLine (symbol : UInt16) (code : Codeword) : String :=
  Text.decimal symbol.toNat ++ "\t" ++ Text.decimal code.length.toNat ++ "\t" ++ code.text
    ++ "\n"

/-- The printed code of a table. -/
def codesText (table : Table) : String :=
  String.join (table.codes.map fun entry => codeLine entry.1 entry.2)

/-- The line of decoded symbols. -/
def symbolsText (symbols : List UInt16) : String :=
  " ".intercalate (symbols.map fun symbol => Text.decimal symbol.toNat) ++ "\n"

/-- What is reported about the table of an alphabet with this many symbols. -/
def tableReport (alphabetSize : Nat) (table : Table) : String :=
  "Table:\n"
    ++ "  Alphabet size:    " ++ Text.decimal alphabetSize ++ "\n"
    ++ "  Active symbols:   " ++ Text.decimal table.size ++ "\n"
    ++ "  Code lengths:     " ++ Text.decimal table.shortest.toNat ++ "-"
    ++ Text.decimal table.longest.toNat ++ "\n"
    ++ "  Complete:         " ++ (if table.complete then "yes" else "no") ++ "\n"

/-- What is reported about decoding. -/
def decodeReport (symbols bits : Nat) : String :=
  "Decoded " ++ Text.decimal symbols ++ " symbols from " ++ Text.decimal bits ++ " bits\n"

/-! ### Running -/

/-- The listing that an input holds. -/
def Reading.lengths : Reading → Except Failure (List UInt8)
  | bytes content => (Listing.ofBytes content).mapError .listing
  | notOpened fault => .error (.notOpened fault)
  | notRead fault => .error (.notRead fault)

/-- The code lengths of a code that is known by name. -/
def FixedCode.lengths : FixedCode → List UInt8
  | literal => Deflate.literalLengths
  | distance => Deflate.distanceLengths

/-- The code lengths from a source. -/
def Source.lengths (inputs : Inputs) : Source → Except Failure (List UInt8)
  | listing text => (Listing.parse text).mapError .lengths
  | file path => (inputs.file path).lengths
  | standardInput => inputs.standardInput.lengths
  | fixed code => .ok code.lengths

/-- The code lengths of an invocation, and the table of their code. -/
def Invocation.table (inputs : Inputs) (invocation : Invocation) :
    Except Failure (List UInt8 × Table) :=
  (invocation.source.lengths inputs).bind fun lengths =>
    ((Table.ofLengths invocation.limits lengths).mapError .lengths).map fun table =>
      (lengths, table)

/-- Decodes a bit text, and returns the symbols and the number of bits. -/
def decodeText (table : Table) (text : String) : Except Failure (List UInt16 × Nat) :=
  ((Text.bits text).mapError .notBit).bind fun bits =>
    ((table.decodeAll bits).mapError .undecodable).map fun symbols => (symbols, bits.length)

/-- The reply of a run that fails after it has reported `report`. -/
def Failure.reply (failure : Failure) (report : String) : Reply :=
  ⟨failure.status, "", report ++ "Error: " ++ failure.message ++ "\n"⟩

/-- What an action replies, given a table, after `report` has been reported. -/
def Action.run (table : Table) (verbose : Bool) (report : String) : Action → Reply
  | codes => ⟨0, codesText table, report⟩
  | decode text =>
    match decodeText table text with
    | .error failure => failure.reply report
    | .ok (symbols, bits) =>
      ⟨0, symbolsText symbols,
        report ++ if verbose then decodeReport symbols.length bits else ""⟩

/-- Runs an invocation. -/
def Invocation.run (inputs : Inputs) (invocation : Invocation) : Reply :=
  match invocation.table inputs with
  | .error failure => failure.reply ""
  | .ok (lengths, table) =>
    invocation.action.run table invocation.verbose
      (if invocation.verbose then tableReport lengths.length table else "")

end PrefixCode.Command
