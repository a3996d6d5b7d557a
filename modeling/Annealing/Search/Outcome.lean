import Annealing.Search.Descent
import Annealing.Random.ChaCha

/-!
# Searches

A search visits every level of its settings and reports the best state that
its walk held. Unusable settings and an engine without a problem are refused
before any word of the tape is read. Settings under which a search never
freezes are not refused, since its walk may break off before that is known.
-/
namespace Annealing

/-- What a search found, and the statistics of its walk. -/
structure Outcome (σ : Type) where
  best : σ
  bestObjective : Float
  /-- Whether the best state satisfies the constraints. -/
  feasible : Bool
  /-- The current state when the search froze. -/
  last : σ
  proposals : Nat
  levels : Nat
  finalTemperature : Float
  accepted : Nat
  improving : Nat

/-- Why a search has no outcome. -/
inductive Stop where
  | refused (defect : Settings.Defect)
  | noProblem
  /-- A constraint refers to something outside of a state. -/
  | outOfRange
  /-- The temperature has stopped falling above the threshold. -/
  | endless

variable {σ ω : Type}

/-- The outcome of a walk that has visited all levels. -/
def Outcome.ofWalk (levels : Nat) (finalTemperature : Float) (w : Walk σ) : Outcome σ where
  best := w.best
  bestObjective := w.bestObjective
  feasible := w.feasible
  last := w.current
  proposals := w.proposals
  levels
  finalTemperature
  accepted := w.accepted
  improving := w.improving

section
variable (levels : Nat) (finalTemperature : Float) (w : Walk σ)

@[simp] theorem Outcome.best_ofWalk : (ofWalk levels finalTemperature w).best = w.best := rfl

@[simp] theorem Outcome.bestObjective_ofWalk :
    (ofWalk levels finalTemperature w).bestObjective = w.bestObjective := rfl

@[simp] theorem Outcome.feasible_ofWalk :
    (ofWalk levels finalTemperature w).feasible = w.feasible := rfl

@[simp] theorem Outcome.last_ofWalk : (ofWalk levels finalTemperature w).last = w.current := rfl

@[simp] theorem Outcome.accepted_ofWalk :
    (ofWalk levels finalTemperature w).accepted = w.accepted := rfl

end

/-- Searches with the words of a tape. The answer has the outcome and the folded
events, and always the tape where the search left it. -/
def observedSearch (p : Problem σ) (s : Settings) (observe : ω → Event σ → ω) (seen : ω)
    (t : Tape) : Except Stop (Outcome σ × ω) × Tape :=
  match s.defect? with
  | some defect => (.error (.refused defect), t)
  | none =>
    match Walk.start p t with
    | .error tape => (.error .outOfRange, tape)
    | .ok w =>
      match w.descend p s observe Settings.patience 0 s.initial seen with
      | .error tape => (.error .outOfRange, tape)
      | .ok (levels, final, w, seen) =>
        if final > s.threshold then (.error .endless, w.tape)
        else (.ok (.ofWalk levels final w, seen), w.tape)

/-- Searches unobserved. -/
def search (p : Problem σ) (s : Settings) (t : Tape) : Except Stop (Outcome σ) × Tape :=
  let (result, tape) := observedSearch p s (fun seen _ => seen) () t
  (result.map Prod.fst, tape)

/-- Searches and lists all events, first to last. -/
def tracedSearch (p : Problem σ) (s : Settings) (t : Tape) :
    Except Stop (Outcome σ × List (Event σ)) × Tape :=
  let (result, tape) := observedSearch p s (fun seen event => event :: seen) [] t
  (result.map fun (outcome, seen) => (outcome, seen.reverse), tape)

/-- The tape that the settings ask for; without a seed of their own they take
the given one. -/
def Settings.tape (s : Settings) (entropy : UInt64) : Tape := .ofSeed (s.seed?.getD entropy)

/-- An engine with settings and perhaps a problem to search. -/
structure Engine (σ : Type) where
  settings : Settings
  problem? : Option (Problem σ) := none

namespace Engine

/-- The engine with a problem to search. -/
def bind (e : Engine σ) (p : Problem σ) : Engine σ := { e with problem? := some p }

/-- Searches with the words of a tape. -/
def search (e : Engine σ) (t : Tape) : Except Stop (Outcome σ) × Tape :=
  match e.problem? with
  | none => (.error .noProblem, t)
  | some p => Annealing.search p e.settings t

end Engine
end Annealing
