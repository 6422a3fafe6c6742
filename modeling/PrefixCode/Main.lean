/-
# The program

Reads the command line and the inputs that it names, and prints what the run leaves behind.
-/
import PrefixCode.Command.Arguments
import PrefixCode.Command.Run

namespace PrefixCode.Command

/-- The words and the number of the operating system for an error. -/
def SystemFault.ofError (error : IO.Error) : SystemFault :=
  match error with
  | .noFileOrDirectory _ number words
  | .interrupted _ number words => ⟨words, number.toNat⟩
  | .alreadyExists _ number words
  | .invalidArgument _ number words
  | .permissionDenied _ number words
  | .resourceExhausted _ number words
  | .inappropriateType _ number words
  | .noSuchThing _ number words => ⟨words, number.toNat⟩
  | .otherError number words
  | .resourceBusy number words
  | .resourceVanished number words
  | .unsupportedOperation number words
  | .hardwareFault number words
  | .unsatisfiedConstraints number words
  | .illegalOperation number words
  | .protocolError number words
  | .timeExpired number words => ⟨words, number.toNat⟩
  | .unexpectedEof => ⟨"Unexpected end of file", 0⟩
  | .userError words => ⟨words, 0⟩

/-- Reads all that a stream still holds. -/
def readToEnd (read : IO ByteArray) : IO Reading := do
  match ← read.toBaseIO with
  | .ok bytes => return .bytes bytes
  | .error error => return .notRead (.ofError error)

/-- Reads a file. -/
def readFile (path : String) : IO Reading := do
  match ← (IO.FS.Handle.mk path IO.FS.Mode.read).toBaseIO with
  | .ok handle => readToEnd handle.readBinToEnd
  | .error error => return .notOpened (.ofError error)

/-- Reads what a request needs to be answered: standard input or one file, if any. -/
def Request.inputs (request : Request) : IO Inputs := do
  let nothing : Reading := .bytes .empty
  match request with
  | .invoke ⟨_, _, .standardInput, _⟩ =>
    let reading ← readToEnd ((← IO.getStdin).readBinToEnd)
    return ⟨reading, fun _ => nothing⟩
  | .invoke ⟨_, _, .file path, _⟩ =>
    let reading ← readFile path
    return ⟨nothing, fun _ => reading⟩
  | _ => return ⟨nothing, fun _ => nothing⟩

end PrefixCode.Command

open PrefixCode.Command in
/-- Answers the request on the command line, and returns the exit status. -/
def main (arguments : List String) : IO UInt32 := do
  match parse arguments with
  | none =>
    (← IO.getStderr).putStr usageText
    return 2
  | some request =>
    let reply := request.run (← request.inputs)
    (← IO.getStdout).putStr reply.output
    (← IO.getStderr).putStr reply.errors
    return reply.status.toUInt32
