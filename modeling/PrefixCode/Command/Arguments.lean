/-
# Reading the command line

The arguments are options and one word, which names the action.  An option is written with
two hyphens and its name or, if it has one, with a single hyphen and its letter; letters may
stand together behind one hyphen.  The value of an option is the next argument, or it is
attached: to the name behind an equals sign, to the letter with or without one.

The options in front of the word apply to every action; they may be given behind it as well,
and take precedence there.  No option may be given twice on one side of the word.  A request
for the version or for help counts as soon as it is met, if all before it is in order.  For help
there is a word as well, which may be followed by another word.

Only the program itself needs this: what a run does depends on its invocation alone, however it
was written down.
-/
import PrefixCode.Command.Run
import PrefixCode.Text.Numeral

namespace PrefixCode.Command

/-! ### Requests -/

/-- What the command line asks for. -/
inductive Request
  /-- How the program is to be called. -/
  | help
  /-- The name and the version of the program. -/
  | version
  /-- A run of the program. -/
  | invoke (invocation : Invocation)
  deriving DecidableEq

/-- How the program is to be called. -/
def usageText : String :=
  "usage: canonhuff [--max-code-len N] [--require-complete] [--verbose] codes|decode\n"
    ++ "         (--lengths TEXT | --lengths-file PATH | --fixed literal|distance)\n"
    ++ "         [--bits TEXT]\n"

/-- The name and the version of the program. -/
def versionText : String := "canonhuff 0.1.0\n"

/-- Answers a request. -/
def Request.run (inputs : Inputs) : Request → Reply
  | help => ⟨0, usageText, ""⟩
  | version => ⟨0, versionText, ""⟩
  | invoke invocation => invocation.run inputs

/-! ### Options -/

/-- The options of the command line. -/
inductive Opt
  | maxLength
  | requireComplete
  | verbose
  | help
  | version
  | listing
  | listingFile
  | fixed
  | bits
  deriving DecidableEq

namespace Opt

/-- The name of an option. -/
def name : Opt → String
  | maxLength => "max-code-len"
  | requireComplete => "require-complete"
  | verbose => "verbose"
  | help => "help"
  | version => "version"
  | listing => "lengths"
  | listingFile => "lengths-file"
  | fixed => "fixed"
  | bits => "bits"

/-- The letter of an option, if it has one. -/
def letter? : Opt → Option Char
  | verbose => some 'v'
  | help => some 'h'
  | version => some 'V'
  | listing => some 'l'
  | listingFile => some 'f'
  | bits => some 'b'
  | maxLength | requireComplete | fixed => none

/-- Whether an option comes with a value. -/
def takesValue : Opt → Bool
  | maxLength | listing | listingFile | fixed | bits => true
  | requireComplete | verbose | help | version => false

end Opt

/-- Where an option may stand: in front of the word, or behind the word for an action. -/
inductive Scope
  | front
  | codes
  | decode
  deriving DecidableEq

namespace Scope

/-- The scope that a word opens. -/
def ofWord? (word : String) : Option Scope :=
  if word = "codes" then some codes
  else if word = "decode" then some decode
  else none

/-- The options that may be given in a scope. -/
def options : Scope → List Opt
  | front => [.maxLength, .requireComplete, .verbose, .help, .version]
  | codes => [.maxLength, .requireComplete, .verbose, .help, .listing, .listingFile, .fixed]
  | decode =>
    [.maxLength, .requireComplete, .verbose, .help, .listing, .listingFile, .fixed, .bits]

/-- The option of a scope with this name. -/
def named? (scope : Scope) (name : String) : Option Opt :=
  scope.options.find? fun option => option.name == name

/-- The option of a scope with this letter. -/
def lettered? (scope : Scope) (letter : Char) : Option Opt :=
  scope.options.find? fun option => option.letter? == some letter

end Scope

/-! ### From arguments to settings -/

/-- What a piece of the command line says. -/
inductive Setting
  /-- An option without a value. -/
  | flag (option : Opt)
  /-- An option and its value. -/
  | value (option : Opt) (text : String)
  /-- Nothing that the scope allows. -/
  | fault
  deriving DecidableEq

/-- The request that an option is by itself, if it is one. -/
def Setting.request? : Setting → Option Request
  | .flag .help => some .help
  | .flag .version => some .version
  | _ => none

/-- The shapes of an argument. -/
inductive Argument
  /-- The word for an action, or the value of the option before it. -/
  | word
  /-- Two hyphens alone, behind which there are no more options. -/
  | terminator
  /-- The name of an option, with the value attached to it if there is one. -/
  | long (name : String) (value : Option String)
  /-- The letters of options, the last one maybe with its value. -/
  | short (letters : List Char)
  deriving DecidableEq

/-- The shape of an argument. -/
def Argument.ofChars : List Char → Argument
  | ['-', '-'] => .terminator
  | '-' :: '-' :: text =>
    match text.span (· != '=') with
    | (name, []) => .long (String.ofList name) none
    | (name, _ :: value) => .long (String.ofList name) (some (String.ofList value))
  | '-' :: letter :: letters => .short (letter :: letters)
  | _ => .word

/-- What an option given by name says, and the option that has still to get its value. -/
def longSettings (scope : Scope) (name : String) (value : Option String) :
    List Setting × Option Opt :=
  match scope.named? name, value with
  | none, _ => ([.fault], none)
  | some option, none => if option.takesValue then ([], some option) else ([.flag option], none)
  | some option, some text =>
    if option.takesValue then ([.value option text], none) else ([.fault], none)

/-- What options given by letters say, and the option that has still to get its value. -/
def letterSettings (scope : Scope) : List Char → List Setting × Option Opt
  | [] => ([], none)
  | letter :: rest =>
    match scope.lettered? letter with
    | none => ([.fault], none)
    | some option =>
      if option.takesValue then
        match rest with
        | [] => ([], some option)
        | '=' :: text => ([.value option (String.ofList text)], none)
        | text => ([.value option (String.ofList text)], none)
      else
        let (settings, open?) := letterSettings scope rest
        (.flag option :: settings, open?)

/-- Reads the options at the front of the arguments, up to the first argument that is no
option nor the value of one, and returns what they say and the arguments left over.  The
first parameter is the option that has still to get its value. -/
def scan (scope : Scope) : Option Opt → List String → List Setting × List String
  | none, [] => ([], [])
  | some _, [] => ([.fault], [])
  | some option, argument :: rest =>
    if Argument.ofChars argument.toList = .word then
      let (settings, rest) := scan scope none rest
      (.value option argument :: settings, rest)
    else ([.fault], rest)
  | none, argument :: rest =>
    match Argument.ofChars argument.toList with
    | .word | .terminator => ([], argument :: rest)
    | .long name value =>
      let (here, open?) := longSettings scope name value
      let (settings, rest) := scan scope open? rest
      (here ++ settings, rest)
    | .short letters =>
      let (here, open?) := letterSettings scope letters
      let (settings, rest) := scan scope open? rest
      (here ++ settings, rest)

/-! ### From settings to a request -/

/-- The options given on one side of the word. -/
structure Options where
  maxLength : Option UInt8
  requireComplete : Bool
  verbose : Bool
  source : Option Source
  bits : Option String
  deriving DecidableEq

namespace Options

/-- No options. -/
def empty : Options := ⟨none, false, false, none, none⟩

/-- A greatest code length, if the text is a numeral for one. -/
def maxLength? (text : String) : Option UInt8 :=
  ((Text.integer? text.toList).filter fun n => 0 ≤ n && n ≤ 255).map fun n => n.toNat.toUInt8

/-- The source that an option and its value stand for.  A path is not empty. -/
def source? (option : Opt) (text : String) : Option Source :=
  match option with
  | .listing => some (.listing text)
  | .listingFile => if text = "" then none else some (.ofPath text)
  | .fixed =>
    if text = "literal" then some (.fixed .literal)
    else if text = "distance" then some (.fixed .distance)
    else none
  | _ => none

/-- Adds what one more setting says, unless it has been said before. -/
def add (options : Options) : Setting → Option Options
  | .flag .requireComplete =>
    if options.requireComplete then none else some { options with requireComplete := true }
  | .flag .verbose => if options.verbose then none else some { options with verbose := true }
  | .value .maxLength text =>
    if options.maxLength.isSome then none
    else (maxLength? text).map fun n => { options with maxLength := some n }
  | .value .bits text =>
    if options.bits.isSome then none else some { options with bits := some text }
  | .value option text =>
    if options.source.isSome then none
    else (source? option text).map fun source => { options with source := some source }
  | _ => none

/-- What the settings say together, up to the first one that is a request by itself, and what
this one asks for. -/
def ofSettings (settings : List Setting) : Option (Options × Option Request) :=
  let (before, after) := settings.span fun setting => setting.request? = none
  (before.foldlM add empty).map fun options => (options, after.head?.bind Setting.request?)

/-- The action of a scope, if its options tell enough about it. -/
def action? (options : Options) : Scope → Option Action
  | .front => none
  | .codes => some .codes
  | .decode => options.bits.map Action.decode

/-- The invocation that the options on the two sides of a word describe. -/
def invocation? (front behind : Options) (scope : Scope) : Option Invocation :=
  behind.source.bind fun source =>
    (behind.action? scope).map fun action => {
      limits := {
        maxLength := (behind.maxLength.or front.maxLength).getD deflateMaxLength
        requireComplete := front.requireComplete || behind.requireComplete }
      verbose := front.verbose || behind.verbose
      source
      action }

end Options

/-- What the arguments behind the word for an action ask for, given the options in front of
it. -/
def parseAction (front : Options) (scope : Scope) (arguments : List String) :
    Option Request :=
  let (settings, rest) := scan scope none arguments
  (Options.ofSettings settings).bind fun
    | (_, some request) => some request
    | (behind, none) =>
      if rest = [] ∨ rest = ["--"] then (front.invocation? behind scope).map .invoke else none

/-- What the arguments from the first word on ask for, given the options in front of it. -/
def parseWords (front : Options) : List String → Option Request
  | [] => none
  | "help" :: words =>
    if words ∈ [[], ["codes"], ["decode"], ["help"]] then some .help else none
  | word :: arguments =>
    (Scope.ofWord? word).bind fun scope => parseAction front scope arguments

/-- What the arguments ask for; nothing if they do not follow the rules. -/
def parse (arguments : List String) : Option Request :=
  let (settings, rest) := scan .front none arguments
  (Options.ofSettings settings).bind fun
    | (_, some request) => some request
    | (front, none) => parseWords front rest

end PrefixCode.Command
