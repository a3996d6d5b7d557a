import Annealing.Decimal.Positional
import Annealing.Text.Blank
import Annealing.Text.Lines

/-!
# Comparing results

Expected and actual results are compared line by line, by position. Blank
lines are dropped first, and the words of a line are joined by single spaces.
-/
namespace Annealing.Solving

open Text

/-- A position where expected and actual lines differ. Positions are counted
from one, and a line may be missing on one side. -/
structure Difference where
  line : Nat
  expected? : Option String
  actual? : Option String
  deriving DecidableEq, Repr

/-- The lines of a text that are not blank, with single spaces. -/
def contentLines (text : String) : List String :=
  (((lines text.toList).map fun line => joinWords (words line)).filter (!·.isEmpty)).map
    String.ofList

/-- The differences of two lists of lines whose first ones have the given
position. -/
def differencesFrom : Nat → List String → List String → List Difference
  | _, [], [] => []
  | k, e :: expected, [] => ⟨k, some e, none⟩ :: differencesFrom (k + 1) expected []
  | k, [], a :: actual => ⟨k, none, some a⟩ :: differencesFrom (k + 1) [] actual
  | k, e :: expected, a :: actual =>
    if e = a then differencesFrom (k + 1) expected actual
    else ⟨k, some e, some a⟩ :: differencesFrom (k + 1) expected actual

/-- The differences between an expected text and the solutions found. -/
def differences (expected : String) (solutions : List String) : List Difference :=
  differencesFrom 1 (contentLines expected) (solutions.flatMap contentLines)

/-- The lines of a difference. -/
def Difference.format (d : Difference) : List String :=
  (d.expected?.map ("- " ++ ·)).toList ++ (d.actual?.map ("+ " ++ ·)).toList

/-- The verdict on the solutions of a file, labelled with a size. -/
def formatVerdict (size : Float) (file : String) (ds : List Difference) : String :=
  let word := if ds.isEmpty then "OK" else "FAIL"
  String.intercalate "\n"
    ((decimalText size ++ " " ++ word ++ " " ++ file) :: ds.flatMap Difference.format)

end Annealing.Solving
