import Annealing.Search.Outcome
import Annealing.Timing.Stopwatch

/-!
# Failures and messages

Every operation of the program that can fail does so with a `Failure`, whose
message is what the user is told. Other messages have a level and are shown
or not by the verbosity of the program.
-/
namespace Annealing

/-- Why an operation failed. -/
inductive Failure where
  /-- A file could not be used. -/
  | io (details : String)
  /-- A line of an instance text is malformed. -/
  | malformed (line : Nat) (details : String)
  /-- A timer was used out of order. -/
  | invalidState (details : String)
  | configuration (details : String)
  /-- A worker ended abnormally. -/
  | worker (file reason : String)
  /-- An index lies outside of its range. -/
  | outOfRange
  /-- A length of time was divided by zero. -/
  | divisionByZero
  /-- A search would never freeze. -/
  | endless
  deriving DecidableEq, Repr

namespace Failure

def message : Failure → String
  | .io details => "IO error, more details: " ++ details
  | .malformed line details =>
    "invalid instance data on line " ++ line.repr ++ ": " ++ details
  | .invalidState details => "invalid state: " ++ details
  | .configuration details => "configuration error: " ++ details
  | .worker file reason => "worker for " ++ file ++ " failed: " ++ reason
  | .outOfRange => "index out of range"
  | .divisionByZero => "divide by zero error when dividing duration by scalar"
  | .endless => "the cooling schedule never freezes"

/-- Whether a failure ends the program on the spot, before it can be reported. -/
def isCrash : Failure → Bool
  | .outOfRange => true
  | .divisionByZero => true
  | _ => false

/-- The failure of a search that has no outcome. -/
def ofStop : Stop → Failure
  | .refused defect => .configuration defect.message
  | .noProblem => .configuration "no problem domain bound to the annealing engine"
  | .outOfRange => .outOfRange
  | .endless => .endless

end Failure

instance : Coe Timing.Misuse Failure where
  coe misuse := .invalidState misuse.message

/-- The failure of arithmetic. -/
def Failure.ofFault : Timing.Fault → Failure
  | .divisionByZero => .divisionByZero

/-- The level of a message, the most urgent first. -/
inductive Level where
  | error
  | warn
  | info
  | debug
  deriving DecidableEq, Repr

def Level.name : Level → String
  | .error => "ERROR"
  | .warn => "WARN"
  | .info => "INFO"
  | .debug => "DEBUG"

/-- A message for the user. -/
structure Message where
  level : Level
  text : String
  deriving DecidableEq, Repr

/-- The line of a message. -/
def Message.format (m : Message) : String := "[" ++ m.level.name ++ "] " ++ m.text

/-- Whether a message is shown: errors and warnings always are. -/
def Message.shown (verbose : Bool) (m : Message) : Bool :=
  verbose || m.level = .error || m.level = .warn

end Annealing
