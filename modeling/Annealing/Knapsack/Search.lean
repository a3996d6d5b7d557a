import Annealing.Knapsack.Basic
import Annealing.Search.Problem

/-!
# Knapsack as a search problem

A search starts with nothing selected and toggles one item at a time. A
selection is feasible if its weight is within the capacity, and the better the
larger its price.
-/
namespace Annealing.Knapsack

/-- Toggles a random item, if there are any items. -/
def Instance.neighbor (i : Instance) (s : Selection i.items.size) (t : Tape) :
    Selection i.items.size × Tape :=
  if h : 0 < i.items.size then
    let (k, t) := t.nextIndex i.items.size h
    (s.toggle k i.items[k], t)
  else (s, t)

/-- Whether the weight of a selection is within the capacity. -/
def Instance.fits (i : Instance) {n : Nat} (s : Selection n) : Bool := s.weight ≤ i.capacity

/-- The price of a selection as a number. -/
def Selection.merit {n : Nat} (s : Selection n) : Float := s.price.toFloat

/-- The search problem of an instance. -/
def Instance.problem (i : Instance) : Problem (Selection i.items.size) where
  size := i.items.size
  start t := (.empty _, t)
  neighbor := i.neighbor
  feasible? s := some (i.fits s)
  objective := Selection.merit

end Annealing.Knapsack
