import Annealing.Decimal.Numeral
import Annealing.Files.Path
import Annealing.Solving.Kind

/-!
# Values of options

The value of an option is a text of one of four kinds. Each kind has its own
reader, and a command line with a value that the reader refuses is refused as
a whole, whether the value is asked for later or not.
-/
namespace Annealing.Command

/-- What the value of an option stands for. -/
inductive ValueKind where
  | path
  | choice
  /-- An unsigned number of 64 bits. -/
  | word
  | number
  deriving DecidableEq, Repr

/-- A path is any text but the empty one. -/
def readPath? (text : String) : Option Path := if text.isEmpty then none else some ⟨text⟩

def readWord? (text : String) : Option UInt64 := Numeral.unsigned? text.toList

def readNumber? (text : String) : Option Float := Numeral.real? text.toList

/-- Whether a text is a value of a kind. -/
def ValueKind.accepts : ValueKind → String → Bool
  | .path, text => (readPath? text).isSome
  | .choice, text => (Solving.Choice.ofWord? text).isSome
  | .word, text => (readWord? text).isSome
  | .number, text => (readNumber? text).isSome

end Annealing.Command
