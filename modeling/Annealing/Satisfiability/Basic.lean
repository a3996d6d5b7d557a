import Annealing.Totals

/-!
# Weighted satisfiability: instances and assignments

An instance has weighted terms and clauses, and asks for the assignment of
largest weight among those that make a literal of every clause true. The
weight of an assignment is the total weight of its true terms and is adjusted
at every change.

A literal names its term by position. One that names no term of an assignment
has no value there, and neither has a clause whose value hangs on it.
-/
namespace Annealing.Satisfiability

/-- A named variable with a weight. -/
structure Term where
  name : String
  weight : UInt64
  deriving DecidableEq, Repr, Inhabited

/-- A term, given by its position, or its negation. -/
structure Literal where
  term : Nat
  negated : Bool
  deriving DecidableEq, Repr

/-- A clause holds if one of its literals is true. -/
abbrev Clause := List Literal

/-- Weighted terms and the clauses over them. -/
structure Instance where
  id : UInt64
  terms : Array Term
  clauses : List Clause
  deriving DecidableEq, Repr

/-- The total weight of all terms, if it is a word. -/
def Instance.totalWeight? (i : Instance) : Option UInt64 :=
  Totals.sum? (i.terms.toList.map Term.weight)

/-- A truth value for each of `n` terms. -/
structure Assignment (n : Nat) where
  values : Vector Bool n
  weight : UInt64
  deriving DecidableEq, Repr

namespace Assignment

variable {n : Nat}

/-- Every term is false. -/
def allFalse (n : Nat) : Assignment n := ⟨Vector.replicate n false, 0⟩

/-- The value of a term. -/
def value (a : Assignment n) (i : Fin n) : Bool := a.values.get i

/-- Gives a term a value. -/
def set (a : Assignment n) (i : Fin n) (term : Term) (value : Bool) : Assignment n :=
  if a.value i = value then a
  else
    { values := a.values.set i value i.isLt
      weight := if value then a.weight + term.weight else a.weight - term.weight }

/-- Gives a term its other value. -/
def toggle (a : Assignment n) (i : Fin n) (term : Term) : Assignment n :=
  a.set i term !(a.value i)

end Assignment

variable {n : Nat}

/-- The truth of a literal, if its term exists. -/
def Literal.holds? (l : Literal) (a : Assignment n) : Option Bool :=
  a.values[l.term]?.map (· != l.negated)

/-- Whether some literal of a clause is true; literals after the first true one
are not looked at. -/
def Clause.holds? (c : Clause) (a : Assignment n) : Option Bool := c.anyM (·.holds? a)

/-- Whether every clause holds; clauses after the first that fails are not
looked at. -/
def Instance.satisfied? (i : Instance) (a : Assignment n) : Option Bool :=
  i.clauses.allM (Clause.holds? · a)

end Annealing.Satisfiability
