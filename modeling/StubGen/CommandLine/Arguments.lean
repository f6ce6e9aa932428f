import StubGen.Command.Generate
import StubGen.Text.Control
import StubGen.Text.Similarity

/-!
# Arguments

What the arguments of the program ask for. They are read from left to right and the first
fault is the one that is reported. The value of an argument is only looked at when the next
argument has been recognised, so an unknown option goes before a bad value in front of it.
-/

namespace StubGen

/-- What to do about an argument that is not known. -/
inductive Advice where
  /-- To take an option of a similar name. -/
  | similar (name : String)
  /-- To end the options before it, so that it is a value. -/
  | asValue
deriving DecidableEq, Repr, Inhabited

/-- What is wrong with the arguments. -/
inductive UsageError where
  /-- Nothing was asked for. -/
  | nothingAsked
  | missingSubcommand
  | unrecognizedSubcommand (text : String)
  | unexpectedArgument (text : String) (advice : Option Advice)
  /-- An argument without its value, or with an empty one. -/
  | valueRequired (argument : String)
  | invalidValue (value argument : String)
  | repeatedArgument (argument : String)
  /-- A value for an argument that takes none. -/
  | unexpectedValue (value argument : String)
deriving DecidableEq, Repr, Inhabited

namespace UsageError

/-- A text of the user in a message. Controls are left out, so it cannot change how the
message is shown. -/
def quoted (text : String) : String := "'" ++ Text.withoutControls text ++ "'"

/-- The advice on an argument, in a paragraph of its own. -/
def hint (text : String) : Advice → String
  | .similar name => "\n\n  tip: a similar argument exists: " ++ quoted ("--" ++ name)
  | .asValue =>
    "\n\n  tip: to pass " ++ quoted text ++ " as a value, use " ++ quoted ("-- " ++ text)

/-- The message. If nothing was asked for, there is none, and the help is shown instead. -/
def message? : UsageError → Option String
  | nothingAsked => none
  | missingSubcommand => some "'scribe' requires a subcommand but one was not provided"
  | unrecognizedSubcommand text => some ("unrecognized subcommand " ++ quoted text)
  | unexpectedArgument text advice =>
    some ("unexpected argument " ++ quoted text ++ " found" ++
      match advice with
      | some advice => hint text advice
      | none => "")
  | valueRequired argument =>
    some ("a value is required for '" ++ argument ++ "' but none was supplied")
  | invalidValue value argument =>
    some ("invalid value " ++ quoted value ++ " for '" ++ argument ++ "'")
  | repeatedArgument argument =>
    some ("the argument '" ++ argument ++ "' cannot be used multiple times")
  | unexpectedValue value argument =>
    some ("unexpected value " ++ quoted value ++ " for '" ++ argument ++
      "' found; no more were expected")

end UsageError

/-- Why reading the arguments ended early. -/
inductive Interruption where
  | help
  | version
  | fault (error : UsageError)
deriving DecidableEq, Repr, Inhabited

/-- What the arguments ask for. -/
inductive Request where
  | generate (options : GenerateOptions)
  | check (path : Path)
deriving DecidableEq, Repr, Inhabited

/-- An argument that takes a value. -/
inductive Argument where
  | path
  | out
  | config
  | only
deriving DecidableEq, Repr, Inhabited

namespace Argument

/-- The argument in messages. -/
def display : Argument → String
  | path => "[PATH]"
  | out => "--out <OUT>"
  | config => "--config <CONFIG>"
  | only => "--only <ONLY>"

/-- The name of an option, after its two dashes. -/
def optionName? : Argument → Option String
  | path => none
  | out => some "out"
  | config => some "config"
  | only => some "only"

/-- Whether a value can be given to the argument. -/
def accepts (argument : Argument) (value : String) : Except UsageError Unit :=
  if value = "" then .error (.valueRequired argument.display)
  else if argument = only ∧ (GeneratorChoice.ofName? value).isNone then
    .error (.invalidValue value argument.display)
  else .ok ()

end Argument

/-- An argument by its form. -/
inductive ArgumentForm where
  /-- Two dashes alone: what follows is no option. -/
  | separator
  /-- A name after two dashes, and what follows an equals sign. -/
  | long (name : String) (value : Option String)
  /-- Characters after one dash. -/
  | short (letters : List Char)
  | plain (text : String)
deriving DecidableEq, Repr, Inhabited

namespace ArgumentForm

/-- The form of an argument. -/
def ofText (text : String) : ArgumentForm :=
  match text.toList with
  | ['-', '-'] => separator
  | '-' :: '-' :: rest =>
    match rest.dropWhile (· != '=') with
    | [] => long (String.ofList rest) none
    | _ :: value =>
      long (String.ofList (rest.takeWhile (· != '='))) (some (String.ofList value))
  | '-' :: c :: rest => short (c :: rest)
  | _ => plain text

end ArgumentForm

/-- What was read of the arguments of a subcommand. -/
structure ArgumentState where
  /-- The arguments with their values, in order. -/
  given : List (Argument × String) := []
  /-- Whether more is to be told about the work. -/
  verbose : Bool := false
  /-- Whether options have ended. -/
  separated : Bool := false
  /-- Whether a path was seen. -/
  hasPath : Bool := false
  /-- The last argument, whose value was not looked at yet or is still to come. -/
  pending : Option (Argument × Option String) := none
deriving DecidableEq, Repr, Inhabited

namespace ArgumentState

/-- A value of an argument. -/
def get? (s : ArgumentState) (argument : Argument) : Option String :=
  (s.given.find? (·.1 == argument)).map (·.2)

/-- Takes the value of an argument in. -/
def accept (s : ArgumentState) (argument : Argument) (value : String) :
    Except UsageError ArgumentState :=
  if (s.get? argument).isSome then .error (.repeatedArgument argument.display)
  else do
    argument.accepts value
    .ok { s with given := s.given ++ [(argument, value)] }

/-- Takes the pending argument in. -/
def settle (s : ArgumentState) : Except UsageError ArgumentState :=
  match s.pending with
  | none => .ok s
  | some (argument, none) => .error (.valueRequired argument.display)
  | some (argument, some value) => { s with pending := none }.accept argument value

/-- Takes in the switch that asks to be told more. -/
def setVerbose (s : ArgumentState) : Except UsageError ArgumentState := do
  let s ← s.settle
  if s.verbose then .error (.repeatedArgument "--verbose") else .ok { s with verbose := true }

/-- Whether the next argument is the value of a pending option. -/
def awaitsValue (s : ArgumentState) : Option Argument :=
  match s.pending with
  | some (argument, none) => some argument
  | _ => none

/-- Reads an argument that is no option. -/
def positional (s : ArgumentState) (text : String) : Except UsageError ArgumentState :=
  if s.hasPath then .error (.unexpectedArgument text none)
  else do
    let s ← s.settle
    .ok { s with hasPath := true, pending := some (.path, some text) }

end ArgumentState

/-- Where an argument stands. -/
inductive ArgumentPlace where
  /-- Before the subcommand, where the version can be asked for. -/
  | ahead
  /-- After a subcommand with the given options, where a path can be given. -/
  | within (options : List Argument)
deriving DecidableEq, Repr, Inhabited

namespace ArgumentPlace

/-- The names of the switches. -/
def switches : ArgumentPlace → List String
  | ahead => ["verbose", "help", "version"]
  | within _ => ["verbose", "help"]

/-- The options that take a value. -/
def options : ArgumentPlace → List Argument
  | ahead => []
  | within options => options

/-- The option of a name. -/
def option? (place : ArgumentPlace) (name : String) : Option Argument :=
  place.options.find? (·.optionName? == some name)

/-- The names of all options. -/
def optionNames (place : ArgumentPlace) : List String :=
  place.options.filterMap (·.optionName?) ++ place.switches

/-- The advice on an argument that might be meant as a value. -/
def valueAdvice? : ArgumentPlace → Option Advice
  | ahead => none
  | within _ => some .asValue

/-- The advice on an option that is not known. -/
def advice? (place : ArgumentPlace) (name : String) : Option Advice :=
  match place.optionNames.find? (Text.isSimilar name) with
  | some other => some (.similar other)
  | none => place.valueAdvice?

end ArgumentPlace

/-- Reads switches of one letter. -/
def readLetters (place : ArgumentPlace) (s : ArgumentState) :
    List Char → Except Interruption ArgumentState
  | [] => .ok s
  | 'v' :: rest =>
    match s.setVerbose with
    | .ok s' => readLetters place s' rest
    | .error e => .error (.fault e)
  | c :: _ =>
    if c = 'h' ∨ (c = 'V' ∧ place = .ahead) then
      match s.settle with
      | .ok _ => .error (if c = 'h' then .help else .version)
      | .error e => .error (.fault e)
    else .error (.fault (.unexpectedArgument (String.ofList ['-', c]) place.valueAdvice?))

/-- Reads a switch with a long name. -/
def readSwitch (place : ArgumentPlace) (s : ArgumentState) (name : String)
    (value : Option String) : Except Interruption ArgumentState :=
  if place.switches.contains name then
    match value with
    | some text => .error (.fault (.unexpectedValue text ("--" ++ name)))
    | none =>
      if name = "verbose" then s.setVerbose.mapError .fault
      else
        match s.settle with
        | .ok _ => .error (if name = "help" then .help else .version)
        | .error e => .error (.fault e)
  else .error (.fault (.unexpectedArgument ("--" ++ name) (place.advice? name)))

/-- Reads one argument of a subcommand. -/
def readArgument (place : ArgumentPlace) (s : ArgumentState) (text : String) :
    Except Interruption ArgumentState :=
  if s.separated then (s.positional text).mapError .fault
  else
    match ArgumentForm.ofText text with
    | .separator => .ok { s with separated := true }
    | .long name value =>
      match place.option? name, value with
      | none, _ => readSwitch place s name value
      | some option, some v => (s.settle.bind (·.accept option v)).mapError .fault
      | some option, none =>
        (s.settle.map fun s => { s with pending := some (option, none) }).mapError .fault
    | .short letters => readLetters place s letters
    | .plain text =>
      match s.awaitsValue with
      | some option => .ok { s with pending := some (option, some text) }
      | none => (s.positional text).mapError .fault

/-- Reads the arguments of a subcommand with the given options. -/
def readArguments (options : List Argument) (arguments : List String) :
    Except Interruption ArgumentState := do
  let s ← arguments.foldlM (readArgument (.within options)) {}
  s.settle.mapError .fault

/-- The subcommands. -/
inductive Subcommand where
  | generate
  | check
deriving DecidableEq, Repr, Inhabited

namespace Subcommand

/-- Every subcommand. -/
def all : List Subcommand := [generate, check]

/-- The name. -/
def name : Subcommand → String
  | generate => "generate"
  | check => "check"

/-- The subcommand of a name. -/
def ofName? (text : String) : Option Subcommand := all.find? (·.name == text)

/-- The options. -/
def options : Subcommand → List Argument
  | generate => [.out, .config, .only]
  | check => []

/-- What was asked for by the arguments of the subcommand. -/
def request (c : Subcommand) (s : ArgumentState) : Request :=
  let path : Path := ⟨(s.get? .path).getD "."⟩
  match c with
  | generate =>
    .generate
      { path
        out := (s.get? .out).map (Path.mk ·)
        config := (s.get? .config).map (Path.mk ·)
        only := (s.get? .only).bind GeneratorChoice.ofName? }
  | check => .check path

end Subcommand

namespace Request

/-- The name of the subcommand that shows the help. -/
def helpName : String := "help"

/-- Reads what help is asked for. -/
def ofHelpArguments : List String → Interruption
  | [] => .help
  | text :: rest =>
    if text = helpName ∨ (Subcommand.ofName? text).isSome then
      match rest with
      | [] => .help
      | next :: _ => .fault (.unrecognizedSubcommand next)
    else .fault (.unrecognizedSubcommand text)

/-- Reads the arguments, given what was read before the subcommand. -/
def ofArgumentsFrom (s : ArgumentState) : List String → Except Interruption Request
  | [] => .error (.fault (if s.verbose then .missingSubcommand else .nothingAsked))
  | text :: rest =>
    if s.separated then
      if text = helpName ∨ (Subcommand.ofName? text).isSome then
        .error (.fault (.unexpectedArgument text none))
      else .error (.fault (.unrecognizedSubcommand text))
    else if text = helpName then .error (ofHelpArguments rest)
    else
      match Subcommand.ofName? text with
      | some c => (readArguments c.options rest).map c.request
      | none =>
        match ArgumentForm.ofText text with
        | .separator => ofArgumentsFrom { s with separated := true } rest
        | .long name value =>
          match readSwitch .ahead s name value with
          | .ok s' => ofArgumentsFrom s' rest
          | .error e => .error e
        | .short letters =>
          match readLetters .ahead s letters with
          | .ok s' => ofArgumentsFrom s' rest
          | .error e => .error e
        | .plain _ => .error (.fault (.unrecognizedSubcommand text))

/-- What the arguments ask for. -/
def ofArguments (arguments : List String) : Except Interruption Request :=
  ofArgumentsFrom {} arguments

end Request

end StubGen
