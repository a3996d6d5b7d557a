import Annealing.Random.Tape

/-!
# Problems

A problem is given by what a search needs to know of it: where to start, how
to propose a neighbour of a state, which states satisfy the hard constraints,
and how good a state is. Better states have larger objectives. The states may
be of any type. A constraint may refer to something outside of a state; the
question whether such a state is feasible then has no answer.
-/
namespace Annealing

/-- A problem over states of type `σ`. -/
structure Problem (σ : Type) where
  /-- The number of elements that a move chooses from. -/
  size : Nat
  start : Tape → σ × Tape
  neighbor : σ → Tape → σ × Tape
  feasible? : σ → Option Bool
  objective : σ → Float

/-- A proposed move of the given cost is always accepted if the cost is not
positive, and otherwise with probability `exp (-cost / temperature)`. -/
def acceptMove (cost temperature : Float) (t : Tape) : Bool × Tape :=
  if cost ≤ 0.0 then (true, t)
  else if temperature ≤ 0.0 then (false, t)
  else
    let (chance, t) := t.nextUnit
    (chance < (-cost / temperature).exp, t)

end Annealing
