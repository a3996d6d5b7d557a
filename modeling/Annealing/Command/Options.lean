import Annealing.Command.Value

/-!
# Options of a command line

A command declares its options. Each has a long name, perhaps a short one, and
takes a value or not. The value of an option stands in the next argument or is
attached: `--name=value`, `-nvalue`, `-n=value`. Short options without values
can share an argument. An argument that begins with a dash is never the value
of the option before it, unless it is the dash alone. No option may be given
twice, and there are no arguments besides options and their values. An option
may be final: what stands before it has to be in order, and what follows it is
not read.
-/
namespace Annealing.Command

/-- What is wrong with a command line. -/
inductive UsageError where
  | unexpectedArgument (argument : String)
  | missingValue (option : String)
  | unneededValue (option : String)
  | repeatedOption (option : String)
  | missingOption (option : String)
  | badValue (option value : String)
  | missingCommand
  deriving DecidableEq, Repr

/-- An option of a command. -/
structure OptionSpec where
  long : String
  short? : Option Char := none
  /-- The kind of its value, if it takes one. -/
  value? : Option ValueKind := none
  /-- Whether the rest of the command line does not matter. -/
  final : Bool := false
  deriving DecidableEq, Repr

def OptionSpec.takesValue (spec : OptionSpec) : Bool := spec.value?.isSome

/-- The options given, by their long names, with their values. -/
abbrev Given := List (String × Option String)

/-- Whether an argument is read as options. -/
def isOptionLike (argument : String) : Bool :=
  match argument.toList with
  | ['-'] => false
  | '-' :: _ => true
  | _ => false

/-- The option with a long name. -/
def findLong? (specs : List OptionSpec) (name : String) : Option OptionSpec :=
  specs.find? (·.long = name)

/-- The option with a short name. -/
def findShort? (specs : List OptionSpec) (name : Char) : Option OptionSpec :=
  specs.find? (·.short? = some name)

/-- The options in one argument, and the option that still lacks its value. -/
abbrev Parsed := Given × Option OptionSpec

/-- Reads the short options of an argument. -/
def readShort (specs : List OptionSpec) : List Char → Except UsageError Parsed
  | [] => .ok ([], none)
  | c :: rest =>
    match findShort? specs c with
    | none => .error (.unexpectedArgument (String.ofList ['-', c]))
    | some spec =>
      if spec.takesValue then
        match rest with
        | [] => .ok ([], some spec)
        | '=' :: value | value => .ok ([(spec.long, some (String.ofList value))], none)
      else if spec.final then .ok ([(spec.long, none)], none)
      else
        (readShort specs rest).map fun (given, open?) => ((spec.long, none) :: given, open?)

/-- Reads the long option of an argument, without its dashes. -/
def readLong (specs : List OptionSpec) (body : List Char) : Except UsageError Parsed :=
  let name := String.ofList (body.takeWhile (· ≠ '='))
  match findLong? specs name, body.dropWhile (· ≠ '=') with
  | none, _ => .error (.unexpectedArgument ("--" ++ name))
  | some spec, [] =>
    if spec.takesValue then .ok ([], some spec) else .ok ([(spec.long, none)], none)
  | some spec, _ :: value =>
    if spec.takesValue then .ok ([(spec.long, some (String.ofList value))], none)
    else .error (.unneededValue spec.long)

/-- Reads one argument. -/
def readArgument (specs : List OptionSpec) (argument : String) : Except UsageError Parsed :=
  match argument.toList with
  | ['-'] => .error (.unexpectedArgument argument)
  | '-' :: '-' :: body => readLong specs body
  | '-' :: body => readShort specs body
  | _ => .error (.unexpectedArgument argument)

/-- Whether a final option is among the given ones. -/
def isFinal (specs : List OptionSpec) (given : Given) : Bool :=
  given.any fun option => (findLong? specs option.1).any OptionSpec.final

/-- Reads all arguments. Two dashes end the options, and nothing may follow. -/
def readArguments (specs : List OptionSpec) : List String → Except UsageError Given
  | [] => .ok []
  | ["--"] => .ok []
  | argument :: rest =>
    match readArgument specs argument with
    | .error e => .error e
    | .ok (given, none) =>
      if isFinal specs given then .ok given
      else (readArguments specs rest).map (given ++ ·)
    | .ok (given, some spec) =>
      match rest with
      | [] => .error (.missingValue spec.long)
      | value :: rest =>
        if isOptionLike value then .error (.missingValue spec.long)
        else (readArguments specs rest).map (given ++ (spec.long, some value) :: ·)

/-- The first option that is given twice. -/
def repeated? : Given → Option String
  | [] => none
  | (name, _) :: rest => if rest.any (·.1 = name) then some name else repeated? rest

/-- The first option whose value is not of its kind, and this value. -/
def badValue? (specs : List OptionSpec) (given : Given) : Option (String × String) :=
  given.findSome? fun (name, text?) =>
    match (findLong? specs name).bind OptionSpec.value?, text? with
    | some kind, some text => if kind.accepts text then none else some (name, text)
    | _, _ => none

/-- The options of a command line. -/
def parseOptions (specs : List OptionSpec) (arguments : List String) : Except UsageError Given :=
  (readArguments specs arguments).bind fun given =>
    match repeated? given, badValue? specs given with
    | some name, _ => .error (.repeatedOption name)
    | none, some (name, text) => .error (.badValue name text)
    | none, none => .ok given

/-- Whether an option without a value is given. -/
def hasFlag (given : Given) (name : String) : Bool := given.any (·.1 = name)

/-- The value of an option, if it is given. -/
def value? {α : Type} (given : Given) (name : String) (read? : String → Option α) :
    Except UsageError (Option α) :=
  match given.find? (·.1 = name) with
  | some (_, some text) =>
    match read? text with
    | some value => .ok (some value)
    | none => .error (.badValue name text)
  | _ => .ok none

/-- The value of an option that has to be given. -/
def requiredValue {α : Type} (given : Given) (name : String) (read? : String → Option α) :
    Except UsageError α :=
  (value? given name read?).bind fun
    | some value => .ok value
    | none => .error (.missingOption name)

end Annealing.Command
