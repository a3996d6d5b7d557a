import Annealing.Decimal.Numeral
import Annealing.Knapsack.Basic
import Annealing.Text.Blank
import Annealing.Text.Lines
import Annealing.Text.Located

/-!
# The knapsack format

An instance is one line of natural numbers: its id, the number of its items,
its capacity, and then weight and price of every item. Blank lines between
instances are skipped. A result is a line as well: the id, the number of
items, the price of the selection, and one bit for every item.
-/
namespace Annealing.Knapsack

open Text

/-- What makes a line no instance. -/
inductive Defect where
  | notNatural (token : List Char)
  | tooShort
  | wrongCount (declared : UInt64) (found : Nat)
  | totalTooLarge
  deriving DecidableEq, Repr

def Defect.message : Defect → String
  | .notNatural token =>
    "expected a non-negative integer, got '" ++ String.ofList token ++ "'"
  | .tooShort => "expected at least 'id item_count max_weight'"
  | .wrongCount declared found =>
    "declared " ++ declared.toNat.repr ++ " items but found " ++ found.repr ++
      " numbers after the header"
  | .totalTooLarge => "total item weight or price does not fit in 64 bits"

/-- The numbers of a line. -/
def numbers (line : List Char) : Except Defect (List UInt64) :=
  (words line).mapM fun token =>
    match Numeral.unsigned? token with
    | some n => .ok n
    | none => .error (.notNatural token)

/-- Items from their weights and prices; a number left over is ignored. -/
def pairItems : List UInt64 → List Item
  | weight :: price :: rest => ⟨weight, price⟩ :: pairItems rest
  | _ => []

/-- An instance from the numbers of its line. -/
def ofNumbers : List UInt64 → Except Defect Instance
  | id :: count :: capacity :: rest =>
    if rest.length % 2 ≠ 0 ∨ rest.length / 2 ≠ count.toNat then
      .error (.wrongCount count rest.length)
    else
      let i : Instance := ⟨id, capacity, (pairItems rest).toArray⟩
      if i.totals?.isNone then .error .totalTooLarge else .ok i
  | _ => .error .tooShort

/-- Reads the line of an instance. -/
def parseLine (line : List Char) : Except Defect Instance :=
  (numbers line).bind ofNumbers

/-- The lines of a text that are not blank, with their numbers. -/
def instanceLines (text : List Char) : List (List Char × Nat) :=
  ((lines text).zipIdx 1).filter fun line => !(trim line.1).isEmpty

/-- Reads every line of a text that is not blank as an instance. -/
def parse (text : String) : Except (Located Defect) (List Instance) :=
  (instanceLines text.toList).mapM fun (line, number) =>
    (parseLine line).mapError (⟨number, ·⟩)

/-- The line of an instance. -/
def Instance.format (i : Instance) : String :=
  let numbers := i.id.toNat :: i.items.size :: i.capacity.toNat ::
    i.items.toList.flatMap fun item => [item.weight.toNat, item.price.toNat]
  String.intercalate " " (numbers.map Nat.repr)

/-- The result line of a selection. -/
def formatResult (i : Instance) {n : Nat} (s : Selection n) : String :=
  String.intercalate " "
    (i.id.toNat.repr :: i.items.size.repr :: s.price.toNat.repr ::
      s.bits.toList.map fun selected => if selected then "1" else "0")

end Annealing.Knapsack
