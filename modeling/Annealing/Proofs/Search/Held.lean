import Annealing.Proofs.Decimal.Comparison
import Annealing.Proofs.Search.Run
import Mathlib.Data.List.Induction

/-!
# The states that a search has held

A search holds its start, if that is feasible, and then the state of every
accepted move. The best state of a walk is the leader of these states: the
first one whose objective no other one exceeds. An infeasible start is not
among them, so its objective has no say in which of them leads.

`Walk.Tracks` ties all fields of a walk to the states it has held. It is kept
by every step, and so it holds of the walk behind every outcome.
-/
namespace Annealing

variable {σ : Type}

/-- Keeps the leader so far unless the next state has a larger objective. -/
def preferred (f : σ → Float) : Option σ → σ → Option σ
  | none, x => some x
  | some b, x => if f x > f b then some x else some b

/-- The state with the largest objective, the first one of several. -/
def leader (f : σ → Float) (xs : List σ) : Option σ := xs.foldl (preferred f) none

section
variable {f g : σ → Float} {xs : List σ} {x b : σ}

@[simp] theorem leader_nil : leader f [] = none := rfl

@[simp] theorem leader_concat : leader f (xs ++ [x]) = preferred f (leader f xs) x := by
  simp [leader]

theorem leader_eq_none_iff : leader f xs = none ↔ xs = [] := by
  induction xs using List.reverseRecOn with
  | nil => simp
  | append_singleton xs x ih =>
    rw [leader_concat]
    cases leader f xs with
    | none => simp [preferred]
    | some b =>
      simp only [preferred]
      split <;> simp

/-- Nothing exceeds the leader, and nothing before it is even equal to it. -/
theorem leader_spec (h : leader f xs = some b) :
    ∃ before after, xs = before ++ b :: after ∧ (∀ x ∈ before, ¬ f x ≥ f b) ∧
      ∀ x ∈ xs, ¬ f x > f b := by
  induction xs using List.reverseRecOn generalizing b with
  | nil => cases h
  | append_singleton xs x ih =>
    rw [leader_concat] at h
    cases hl : leader f xs with
    | none =>
      rw [leader_eq_none_iff] at hl
      subst hl
      cases h
      refine ⟨[], [], rfl, by simp, ?_⟩
      simpa using Comparison.not_lt_self
    | some c =>
      obtain ⟨before, after, hxs, hbefore, hall⟩ := ih hl
      rw [hl] at h
      simp only [preferred] at h
      split at h
      case isTrue hx =>
        cases h
        -- Whatever reached the new leader would have exceeded the old one.
        have hlt : ∀ y ∈ xs, ¬ f y ≥ f x := fun y hy hyx =>
          hall y hy (Comparison.lt_of_lt_of_le hx hyx)
        refine ⟨xs, [], rfl, hlt, ?_⟩
        intro y hy
        rcases List.mem_append.mp hy with hy | hy
        · exact fun h => hlt y hy (Comparison.le_of_lt h)
        · rw [List.mem_singleton.mp hy]
          exact Comparison.not_lt_self
      case isFalse hx =>
        cases h
        refine ⟨before, after ++ [x], by simp [hxs], hbefore, ?_⟩
        intro y hy
        rcases List.mem_append.mp hy with hy | hy
        · exact hall y hy
        · rwa [List.mem_singleton.mp hy]

theorem leader_mem (h : leader f xs = some b) : b ∈ xs := by
  obtain ⟨before, after, rfl, -⟩ := leader_spec h
  simp

/-- Which state leads is decided by the objectives of the listed states alone. -/
theorem leader_congr (h : ∀ x ∈ xs, f x = g x) : leader f xs = leader g xs := by
  induction xs using List.reverseRecOn with
  | nil => rfl
  | append_singleton xs x ih =>
    have hxs : ∀ y ∈ xs, f y = g y := fun y hy => h y (List.mem_append_left _ hy)
    have hx : f x = g x := h x (by simp)
    rw [leader_concat, leader_concat, ih hxs]
    cases hl : leader g xs with
    | none => rfl
    | some b => simp only [preferred, hx, hxs b (leader_mem hl)]

end

/-- The state that an event accepts. -/
def Event.acceptedState? : Event σ → Option σ
  | .accepted state _ _ => some state
  | .cooled _ _ => none

/-- The states of the accepted moves among some events. -/
def acceptedStates (events : List (Event σ)) : List σ := events.filterMap Event.acceptedState?

section
variable {events : List (Event σ)}

@[simp] theorem acceptedStates_nil : acceptedStates ([] : List (Event σ)) = [] := rfl

@[simp] theorem acceptedStates_concat_accepted {x : σ} {objective temperature : Float} :
    acceptedStates (events ++ [.accepted x objective temperature]) =
      acceptedStates events ++ [x] := by
  simp [acceptedStates, Event.acceptedState?]

@[simp] theorem acceptedStates_concat_cooled {before after : Float} :
    acceptedStates (events ++ [.cooled before after]) = acceptedStates events := by
  simp [acceptedStates, Event.acceptedState?]

end

/-- The feasible states held by a search that starts at a state and accepts others. -/
def Problem.held (p : Problem σ) (start : σ) (accepted : List σ) : List σ :=
  if p.feasible? start = some true then start :: accepted else accepted

section
variable {p : Problem σ} {start x : σ} {accepted : List σ}

theorem Problem.held_concat :
    p.held start (accepted ++ [x]) = p.held start accepted ++ [x] := by
  unfold held
  split <;> rfl

theorem Problem.held_eq_nil_iff :
    p.held start accepted = [] ↔ p.feasible? start ≠ some true ∧ accepted = [] := by
  unfold held
  split <;> simp [*]

theorem Problem.feasible_of_mem_held (h : ∀ y ∈ accepted, p.feasible? y = some true)
    (hx : x ∈ p.held start accepted) : p.feasible? x = some true := by
  unfold held at hx
  split at hx
  case isTrue hs =>
    rcases List.mem_cons.mp hx with rfl | hx
    · exact hs
    · exact h x hx
  case isFalse => exact h x hx

end

/-- What the fields of a walk say about the states it has held. -/
structure Walk.Tracks (p : Problem σ) (start : σ) (accepted : List σ) (w : Walk σ) : Prop where
  current_eq : w.current = accepted.getLastD start
  objective_eq : w.objective = p.objective w.current
  accepted_eq : w.accepted = accepted.length
  accepted_feasible : ∀ x ∈ accepted, p.feasible? x = some true
  bestObjective_eq : w.bestObjective = p.objective w.best
  leader_eq : leader p.objective (p.held start accepted) =
    if w.feasible then some w.best else none
  best_of_infeasible : w.feasible = false → w.best = start

namespace Walk.Tracks

variable {p : Problem σ} {start : σ} {accepted : List σ} {w : Walk σ}

theorem feasible_iff (h : w.Tracks p start accepted) :
    w.feasible = true ↔ p.held start accepted ≠ [] := by
  rw [Ne, ← leader_eq_none_iff (f := p.objective), h.leader_eq]
  cases w.feasible <;> simp

theorem start_eq_ok {t : Tape} (h : Walk.start p t = .ok w) : w.Tracks p (p.start t).1 [] := by
  obtain ⟨hf, hw⟩ := Walk.start_eq_ok h
  have hheld : p.held (p.start t).1 [] = if w.feasible then [(p.start t).1] else [] := by
    simp only [Problem.held, hf, Option.some.injEq]
  rw [hw]
  refine ⟨rfl, rfl, rfl, by simp, rfl, ?_, fun _ => rfl⟩
  rw [hheld]
  cases w.feasible <;> rfl

theorem stay (h : w.Tracks p start accepted) (tape : Tape) :
    (w.stay tape).Tracks p start accepted :=
  ⟨h.current_eq, h.objective_eq, h.accepted_eq, h.accepted_feasible, h.bestObjective_eq,
    h.leader_eq, h.best_of_infeasible⟩

theorem move (h : w.Tracks p start accepted) {x : σ} (hx : p.feasible? x = some true) :
    (w.move x (p.objective x)).Tracks p start (accepted ++ [x]) where
  current_eq := by simp [Walk.move]
  objective_eq := rfl
  accepted_eq := by simp [Walk.move, h.accepted_eq]
  accepted_feasible := by
    intro y hy
    rcases List.mem_append.mp hy with hy | hy
    · exact h.accepted_feasible y hy
    · rwa [List.mem_singleton.mp hy]
  bestObjective_eq := by
    simp only [Walk.move]
    split
    · rfl
    · exact h.bestObjective_eq
  leader_eq := by
    rw [Problem.held_concat, leader_concat, h.leader_eq]
    cases hw : w.feasible with
    | false => simp [preferred, Walk.move, hw]
    | true =>
      by_cases hb : p.objective x > p.objective w.best <;>
        simp [preferred, Walk.move, hw, h.bestObjective_eq, hb]
  best_of_infeasible := by simp [Walk.move]

theorem propose {temperature : Float} {r : Walk σ × Bool} (h : w.Tracks p start accepted)
    (hr : w.propose p temperature = .ok r) :
    r.1.Tracks p start (if r.2 then accepted ++ [r.1.current] else accepted) := by
  rcases propose_cases hr with ⟨-, rfl⟩ | ⟨-, -, rfl⟩ | ⟨hf, -, rfl⟩
  · exact h.stay _
  · exact h.stay _
  · exact (h.stay _).move hf

end Walk.Tracks

theorem Walk.Reach.tracks {p : Problem σ} {t : Tape} {start w : Walk σ}
    {events : List (Event σ)} (hstart : Walk.start p t = .ok start)
    (h : Reach p start w events) : w.Tracks p (p.start t).1 (acceptedStates events) := by
  induction h with
  | start => exact Tracks.start_eq_ok hstart
  | stay _ hw ih => exact ih.propose hw
  | move _ hw ih =>
    rw [acceptedStates_concat_accepted]
    exact ih.propose hw
  | cool _ _ _ ih =>
    rw [acceptedStates_concat_cooled]
    exact ih

/-- What neighbours inherit from states holds of all accepted states. -/
theorem Walk.Reach.accepted_inherit {P : σ → Prop} {p : Problem σ} {start w : Walk σ}
    {events : List (Event σ)} (h : Reach p start w events)
    (hn : ∀ x t, P x → P (p.neighbor x t).1) (hstart : P start.current ∧ P start.best) :
    ∀ x ∈ acceptedStates events, P x := by
  induction h with
  | start => simp
  | stay _ _ ih => exact ih
  | move hr hw ih =>
    rw [acceptedStates_concat_accepted]
    intro x hx
    rcases List.mem_append.mp hx with hx | hx
    · exact ih x hx
    · rw [List.mem_singleton.mp hx]
      exact ((hr.move hw).inherit hn hstart).1
  | cool _ _ _ ih =>
    rw [acceptedStates_concat_cooled]
    exact ih

end Annealing
