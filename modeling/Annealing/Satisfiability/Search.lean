import Annealing.Satisfiability.Basic
import Annealing.Search.Problem

/-!
# Weighted satisfiability as a search problem

A search starts with every term false and toggles one term at a time. An
assignment is feasible if it satisfies every clause, and the better the larger
its weight.
-/
namespace Annealing.Satisfiability

/-- Toggles a random term, if there are any terms. -/
def Instance.neighbor (i : Instance) (a : Assignment i.terms.size) (t : Tape) :
    Assignment i.terms.size × Tape :=
  if h : 0 < i.terms.size then
    let (k, t) := t.nextIndex i.terms.size h
    (a.toggle k i.terms[k], t)
  else (a, t)

/-- The weight of an assignment as a number. -/
def Assignment.merit {n : Nat} (a : Assignment n) : Float := a.weight.toFloat

/-- The search problem of an instance. -/
def Instance.problem (i : Instance) : Problem (Assignment i.terms.size) where
  size := i.terms.size
  start t := (.allFalse _, t)
  neighbor := i.neighbor
  feasible? := i.satisfied?
  objective := Assignment.merit

end Annealing.Satisfiability
