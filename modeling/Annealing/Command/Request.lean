import Annealing.Batch.Settings
import Annealing.Command.Options
import Annealing.Solving.Report

/-!
# Requests

A request is a command line that has been understood. There are two commands:
`solve` for the instances of one file, and `batch` for the files of a
directory.
-/
namespace Annealing.Command

/-- What `solve` is asked to do. -/
structure SolveRequest where
  file : Path
  options : Solving.Options
  deriving DecidableEq, Repr

/-- What `batch` is asked to do; without a number of jobs, one for each
processor. -/
structure BatchRequest where
  directory : Path
  jobs? : Option Nat
  maxDifficulty? : Option Float
  checkDirectory? : Option Path
  measuring : Bool
  choice : Solving.Choice

/-- What the program is asked to do. -/
inductive Request where
  | help
  | version
  | solve (verbose : Bool) (request : SolveRequest)
  | batch (verbose : Bool) (request : BatchRequest)

/-- The options of every command. -/
def commonSpecs : List OptionSpec :=
  [{ long := "verbose", short? := some 'v' }, { long := "help", short? := some 'h', final := true }]

/-- The options of `solve`. -/
def solveSpecs : List OptionSpec :=
  [{ long := "filepath", short? := some 'f', value? := some .path },
    { long := "problem", value? := some .choice },
    { long := "measure", short? := some 'm' },
    { long := "test", short? := some 't', value? := some .path },
    { long := "seed", value? := some .word }] ++ commonSpecs

/-- The options of `batch`. -/
def batchSpecs : List OptionSpec :=
  [{ long := "instances", short? := some 'i', value? := some .path },
    { long := "jobs", short? := some 'j', value? := some .word },
    { long := "difficulty", short? := some 'd', value? := some .number },
    { long := "test", short? := some 't', value? := some .path },
    { long := "measure", short? := some 'm' },
    { long := "problem", value? := some .choice }] ++ commonSpecs

/-- What the options of `solve` ask for. -/
def SolveRequest.ofGiven (given : Given) : Except UsageError SolveRequest := do
  let file ← requiredValue given "filepath" readPath?
  let choice ← value? given "problem" Solving.Choice.ofWord?
  let check? ← value? given "test" readPath?
  let seed? ← value? given "seed" readWord?
  .ok
    { file
      options :=
        { choice := choice.getD .auto, measuring := hasFlag given "measure", check?, seed? } }

/-- What the options of `batch` ask for. -/
def BatchRequest.ofGiven (given : Given) : Except UsageError BatchRequest := do
  let directory ← requiredValue given "instances" readPath?
  let jobs? ← value? given "jobs" readWord?
  let maxDifficulty? ← value? given "difficulty" readNumber?
  let checkDirectory? ← value? given "test" readPath?
  let choice ← value? given "problem" Solving.Choice.ofWord?
  .ok
    { directory
      jobs? := jobs?.map UInt64.toNat
      maxDifficulty?
      checkDirectory?
      measuring := hasFlag given "measure"
      choice := choice.getD .auto }

/-- Understands what help is asked for: at most one command is explained. -/
def parseHelp : List String → Except UsageError Request
  | [] => .ok .help
  | [topic] =>
    if topic ∈ ["solve", "batch", "help"] then .ok .help else .error (.unexpectedArgument topic)
  | _ :: argument :: _ => .error (.unexpectedArgument argument)

/-- Understands a command. The flag tells whether `--verbose` stood in front of
it; it may also stand among the options of the command. -/
def parseCommand (verbose : Bool) (command : String) (arguments : List String) :
    Except UsageError Request :=
  if command = "solve" then do
    let given ← parseOptions solveSpecs arguments
    if hasFlag given "help" then .ok .help
    else .ok (.solve (verbose || hasFlag given "verbose") (← SolveRequest.ofGiven given))
  else if command = "batch" then do
    let given ← parseOptions batchSpecs arguments
    if hasFlag given "help" then .ok .help
    else .ok (.batch (verbose || hasFlag given "verbose") (← BatchRequest.ofGiven given))
  else if command = "help" then parseHelp arguments
  else .error (.unexpectedArgument command)

/-- The options that may stand in front of a command. -/
def leadingSpecs : List OptionSpec :=
  commonSpecs ++ [{ long := "version", short? := some 'V', final := true }]

/-- Goes through options in front of a command, until one of them makes a
request of its own or all are done. -/
def readLeading (verbose : Bool) : Given → Except UsageError (Bool ⊕ Request)
  | [] => .ok (.inl verbose)
  | (name, _) :: rest =>
    if name = "version" then .ok (.inr .version)
    else if name = "help" then .ok (.inr .help)
    else if verbose then .error (.repeatedOption name)
    else readLeading true rest

/-- Understands a whole command line, options in front of the command first. -/
def parseRequest (verbose : Bool) : List String → Except UsageError Request
  | [] => .error .missingCommand
  | argument :: rest =>
    if isOptionLike argument then
      match readArgument leadingSpecs argument with
      | .error e => .error e
      | .ok (given, _) =>
        match readLeading verbose given with
        | .error e => .error e
        | .ok (.inr request) => .ok request
        | .ok (.inl verbose) => parseRequest verbose rest
    else parseCommand verbose argument rest

end Annealing.Command
