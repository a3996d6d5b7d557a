import Annealing.Search.Problem
import Annealing.Search.Settings

/-!
# Walks

A walk holds a current state and the best feasible state it has held so far.
At a temperature it proposes neighbours of its current state; a feasible one
that passes the acceptance test becomes the current state. A walk may start
at an infeasible state, which is left at the first accepted move and is then
no longer a candidate for the best.

The observer of a walk is a function that folds its events, in order, into a
value of any type. It has no influence on the walk. A walk breaks off at a
state whose constraints cannot be checked; what is left then is the tape.
-/
namespace Annealing

/-- What an observer sees of a walk. -/
inductive Event (σ : Type) where
  /-- A neighbour became the current state. -/
  | accepted (state : σ) (objective temperature : Float)
  /-- A level ended. -/
  | cooled (before after : Float)

/-- The state of a walk between two proposals. -/
structure Walk (σ : Type) where
  current : σ
  objective : Float
  best : σ
  bestObjective : Float
  /-- Whether the best state satisfies the constraints. -/
  feasible : Bool
  proposals : Nat
  accepted : Nat
  /-- The accepted moves that made the objective larger. -/
  improving : Nat
  tape : Tape

namespace Walk

variable {σ ω : Type}

/-- The walk at the start of a problem. -/
def start (p : Problem σ) (t : Tape) : Except Tape (Walk σ) :=
  let (state, tape) := p.start t
  match p.feasible? state with
  | none => .error tape
  | some feasible =>
    .ok
      { current := state
        objective := p.objective state
        best := state
        bestObjective := p.objective state
        feasible
        proposals := 0
        accepted := 0
        improving := 0
        tape }

/-- Moves to a feasible neighbour, which becomes the best state if there was
no feasible one before or if its objective is larger. -/
def move (w : Walk σ) (state : σ) (objective : Float) : Walk σ :=
  let better := !w.feasible || objective > w.bestObjective
  { w with
    current := state
    objective
    best := if better then state else w.best
    bestObjective := if better then objective else w.bestObjective
    feasible := true
    accepted := w.accepted + 1
    improving := if w.objective - objective < 0.0 then w.improving + 1 else w.improving }

/-- Makes one proposal at a temperature and tells whether it was accepted. -/
def propose (p : Problem σ) (temperature : Float) (w : Walk σ) :
    Except Tape (Walk σ × Bool) :=
  let (state, tape) := p.neighbor w.current w.tape
  let w := { w with proposals := w.proposals + 1, tape }
  match p.feasible? state with
  | none => .error tape
  | some false => .ok (w, false)
  | some true =>
    let objective := p.objective state
    let (accepted, tape) := acceptMove (w.objective - objective) temperature tape
    let w := { w with tape }
    if accepted then .ok (w.move state objective, true) else .ok (w, false)

/-- Makes a number of proposals at one temperature. -/
def level (p : Problem σ) (observe : ω → Event σ → ω) (temperature : Float) :
    Nat → Walk σ → ω → Except Tape (Walk σ × ω)
  | 0, w, seen => .ok (w, seen)
  | n + 1, w, seen =>
    match w.propose p temperature with
    | .error tape => .error tape
    | .ok (w, true) =>
      level p observe temperature n w (observe seen (.accepted w.current w.objective temperature))
    | .ok (w, false) => level p observe temperature n w seen

/-- Visits a number of levels from a temperature downwards and cools after each.
The answer has the temperature after the last one. -/
def levels (p : Problem σ) (s : Settings) (observe : ω → Event σ → ω) :
    Nat → Float → Walk σ → ω → Except Tape (Float × Walk σ × ω)
  | 0, temperature, w, seen => .ok (temperature, w, seen)
  | n + 1, temperature, w, seen =>
    match level p observe temperature s.proposals w seen with
    | .error tape => .error tape
    | .ok (w, seen) =>
      let next := s.cool temperature
      levels p s observe n next w (observe seen (.cooled temperature next))

end Walk
end Annealing
