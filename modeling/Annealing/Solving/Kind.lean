import Annealing.Text.Blank
import Annealing.Text.Lines

/-!
# Kinds of instance texts

A text holds instances of one kind. The user may name the kind, or leave it
to the text: with a line that begins with `p` it is a satisfiability text.
-/
namespace Annealing.Solving

/-- The kind of the instances of a text. -/
inductive Kind where
  | knapsack
  | satisfiability
  deriving DecidableEq, Repr

/-- The kind asked for. -/
inductive Choice where
  | auto
  | knapsack
  | sat
  deriving DecidableEq, Repr, Inhabited

namespace Choice

/-- The word for a choice on the command line. -/
def word : Choice → String
  | .auto => "auto"
  | .knapsack => "knapsack"
  | .sat => "sat"

/-- The choice of a word. -/
def ofWord? (word : String) : Option Choice :=
  [auto, knapsack, sat].find? (·.word = word)

/-- Whether a text has a line that begins with `p`. -/
def hasHeader (text : String) : Bool :=
  (Text.lines text.toList).any fun line => (Text.trimStart line).head? == some 'p'

/-- The kind that a choice means for a text. -/
def resolve (choice : Choice) (text : String) : Kind :=
  match choice with
  | .knapsack => .knapsack
  | .sat => .satisfiability
  | .auto => if hasHeader text then .satisfiability else .knapsack

end Choice
end Annealing.Solving
