/-
# What the command line can ask for

An invocation names an alphabet, by the lengths of its codewords, and says what to do with
its code: to print it, or to decode a bit text with it.
-/
import PrefixCode.Limits

namespace PrefixCode.Command

/-- The codes that are known by name. -/
inductive FixedCode
  | literal
  | distance
  deriving DecidableEq

/-- Where the code lengths come from. -/
inductive Source
  /-- From a listing on the command line. -/
  | listing (text : String)
  /-- From a listing in a file. -/
  | file (path : String)
  /-- From a listing on standard input. -/
  | standardInput
  /-- From a code that is known by name. -/
  | fixed (code : FixedCode)
  deriving DecidableEq

/-- The source that a path for a listing names: a hyphen stands for standard input, and
anything else for a file. -/
def Source.ofPath (path : String) : Source :=
  if path = "-" then .standardInput else .file path

/-- What to do with the code. -/
inductive Action
  /-- Print the codeword of each symbol. -/
  | codes
  /-- Decode a bit text. -/
  | decode (bits : String)
  deriving DecidableEq

/-- All that the command line says about one run. -/
structure Invocation where
  limits : Limits
  verbose : Bool
  source : Source
  action : Action
  deriving DecidableEq

end PrefixCode.Command
