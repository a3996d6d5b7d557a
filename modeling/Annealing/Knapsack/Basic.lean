import Annealing.Totals

/-!
# Knapsack instances and selections

A selection is a set of items of an instance, kept as one bit for each item
together with the total weight and the total price of the selected items. The
totals are adjusted by one item at every change and never added up again.
-/
namespace Annealing.Knapsack

/-- An item that may be packed. -/
structure Item where
  weight : UInt64
  price : UInt64
  deriving DecidableEq, Repr, Inhabited

/-- A knapsack with a capacity and the items to choose from. -/
structure Instance where
  id : UInt64
  capacity : UInt64
  items : Array Item
  deriving DecidableEq, Repr

/-- The total weight and the total price of all items, if both are words. -/
def Instance.totals? (i : Instance) : Option (UInt64 × UInt64) :=
  match Totals.sum? (i.items.toList.map Item.weight),
    Totals.sum? (i.items.toList.map Item.price) with
  | some weight, some price => some (weight, price)
  | _, _ => none

/-- A selection among `n` items. -/
structure Selection (n : Nat) where
  bits : Vector Bool n
  weight : UInt64
  price : UInt64
  deriving DecidableEq, Repr

namespace Selection

variable {n : Nat}

/-- No item is selected. -/
def empty (n : Nat) : Selection n := ⟨Vector.replicate n false, 0, 0⟩

/-- Whether an item is selected. -/
def contains (s : Selection n) (i : Fin n) : Bool := s.bits[i]

/-- Selects an item and tells whether this changed the selection. -/
def add (s : Selection n) (i : Fin n) (item : Item) : Bool × Selection n :=
  if s.contains i then (false, s)
  else (true, ⟨s.bits.set i true, s.weight + item.weight, s.price + item.price⟩)

/-- Deselects an item and tells whether this changed the selection. -/
def remove (s : Selection n) (i : Fin n) (item : Item) : Bool × Selection n :=
  if s.contains i then
    (true, ⟨s.bits.set i false, s.weight - item.weight, s.price - item.price⟩)
  else (false, s)

/-- Selects an item that is not selected and deselects one that is. -/
def toggle (s : Selection n) (i : Fin n) (item : Item) : Selection n :=
  if s.contains i then (s.remove i item).2 else (s.add i item).2

end Selection
end Annealing.Knapsack
