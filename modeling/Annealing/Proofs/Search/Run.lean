import Annealing.Search.Outcome

/-!
# Runs of a search

A walk reaches another one by proposals, accepted or not, and by ends of
levels; on the way it emits events. Whatever holds of all walks reached from a
start holds at the end of every search, since a search that has an outcome
ends at a walk that its start has reached, and its observer has folded the
events that were emitted.
-/
namespace Annealing

variable {σ ω : Type}

namespace Walk

/-- A walk after a proposal that left its current state alone. -/
def stay (w : Walk σ) (tape : Tape) : Walk σ :=
  { w with proposals := w.proposals + 1, tape }

/-- What one proposal can do: its state is infeasible, or the acceptance test
refuses it, or the walk moves there. -/
theorem propose_cases {p : Problem σ} {temperature : Float} {w : Walk σ}
    {r : Walk σ × Bool} (h : w.propose p temperature = .ok r) :
    let next := p.neighbor w.current w.tape
    let trial := acceptMove (w.objective - p.objective next.1) temperature next.2
    p.feasible? next.1 = some false ∧ r = (w.stay next.2, false) ∨
      p.feasible? next.1 = some true ∧ trial.1 = false ∧ r = (w.stay trial.2, false) ∨
      p.feasible? next.1 = some true ∧ trial.1 = true ∧
        r = ((w.stay trial.2).move next.1 (p.objective next.1), true) := by
  intro next trial
  simp only [propose] at h
  split at h
  case h_1 => cases h
  case h_2 hf =>
    cases h
    exact Or.inl ⟨hf, rfl⟩
  case h_3 hf =>
    by_cases ha : trial.1 = true
    · rw [if_pos ha] at h
      cases h
      exact Or.inr (Or.inr ⟨hf, ha, rfl⟩)
    · rw [if_neg ha] at h
      cases h
      exact Or.inr (Or.inl ⟨hf, by simpa using ha, rfl⟩)

theorem proposals_of_propose {p : Problem σ} {temperature : Float} {w : Walk σ}
    {r : Walk σ × Bool} (h : w.propose p temperature = .ok r) :
    r.1.proposals = w.proposals + 1 := by
  obtain ⟨-, rfl⟩ | ⟨-, -, rfl⟩ | ⟨-, -, rfl⟩ := propose_cases h
  all_goals rfl

/-- A feasible neighbour that is no worse is always accepted. -/
theorem propose_of_cost_le {p : Problem σ} {temperature : Float} {w : Walk σ} {x : σ} {t : Tape}
    (hn : p.neighbor w.current w.tape = (x, t)) (hf : p.feasible? x = some true)
    (hcost : w.objective - p.objective x ≤ 0.0) :
    w.propose p temperature = .ok ((w.stay t).move x (p.objective x), true) := by
  simp only [propose, hn, hf, acceptMove, if_pos hcost, if_true]
  rfl

/-- What neighbours inherit from states is passed on by every proposal. -/
theorem propose_inherit {P : σ → Prop} {p : Problem σ} {temperature : Float} {w w' : Walk σ}
    {moved : Bool} (h : w.propose p temperature = .ok (w', moved))
    (hn : ∀ x t, P x → P (p.neighbor x t).1) (hw : P w.current ∧ P w.best) :
    P w'.current ∧ P w'.best := by
  have hnext : P (p.neighbor w.current w.tape).1 := hn _ _ hw.1
  rcases propose_cases h with ⟨-, heq⟩ | ⟨-, -, heq⟩ | ⟨-, -, heq⟩
  · cases heq
    exact hw
  · cases heq
    exact hw
  · cases heq
    refine ⟨hnext, ?_⟩
    simp only [Walk.move]
    split
    · exact hnext
    · exact hw.2

/-- The walks reached from a start, each with the events emitted on the way. -/
inductive Reach (p : Problem σ) (start : Walk σ) : Walk σ → List (Event σ) → Prop
  | start : Reach p start start []
  | stay {w w' : Walk σ} {events : List (Event σ)} {temperature : Float} :
      Reach p start w events → w.propose p temperature = .ok (w', false) →
      Reach p start w' events
  | move {w w' : Walk σ} {events : List (Event σ)} {temperature : Float} :
      Reach p start w events → w.propose p temperature = .ok (w', true) →
      Reach p start w' (events ++ [.accepted w'.current w'.objective temperature])
  | cool {w : Walk σ} {events : List (Event σ)} (before after : Float) :
      Reach p start w events → Reach p start w (events ++ [.cooled before after])

namespace Reach

variable {p : Problem σ} {s : Settings} {observe : ω → Event σ → ω} {start w : Walk σ}
  {temperature : Float} {seen : ω} {events : List (Event σ)}

theorem level {n : Nat} {w' : Walk σ} {seen' : ω} (hr : Reach p start w events)
    (h : level p observe temperature n w seen = .ok (w', seen')) :
    ∃ more, Reach p start w' (events ++ more) ∧ seen' = more.foldl observe seen := by
  induction n generalizing w seen events with
  | zero =>
    cases h
    exact ⟨[], by simpa using hr, rfl⟩
  | succ n ih =>
    rw [Walk.level] at h
    split at h
    case h_1 => cases h
    case h_2 w₁ hw =>
      obtain ⟨more, hmore, hseen⟩ := ih (hr.move hw) h
      refine ⟨_ :: more, ?_, hseen⟩
      simpa only [List.append_assoc, List.singleton_append] using hmore
    case h_3 w₁ hw => exact ih (hr.stay hw) h

/-- A level, its end, and whatever the walk does from there. -/
theorem visit {n : Nat} {w' last : Walk σ} {seen' result : ω} {after : Float}
    (hr : Reach p start w events)
    (h : Walk.level p observe temperature n w seen = .ok (w', seen'))
    (rest : ∀ {events}, Reach p start w' events → ∃ more, Reach p start last (events ++ more) ∧
      result = more.foldl observe (observe seen' (.cooled temperature after))) :
    ∃ more, Reach p start last (events ++ more) ∧ result = more.foldl observe seen := by
  obtain ⟨es, hes, hseen⟩ := hr.level h
  obtain ⟨more, hmore, hresult⟩ := rest (hes.cool temperature after)
  refine ⟨es ++ .cooled temperature after :: more, ?_, ?_⟩
  · simpa only [List.append_assoc, List.singleton_append] using hmore
  · rw [hresult, hseen, List.foldl_append, List.foldl_cons]

theorem descend {patience passed : Nat} {r : Nat × Float × Walk σ × ω}
    (hr : Reach p start w events)
    (h : descend p s observe patience passed temperature w seen = .ok r) :
    ∃ more, Reach p start r.2.2.1 (events ++ more) ∧ r.2.2.2 = more.foldl observe seen := by
  fun_induction Walk.descend p s observe patience passed temperature w seen generalizing events
  case case1 => cases h
  case case2 visited next cooled falls ih => exact hr.visit visited fun hes => ih hes h
  case case3 visited next cooled falls =>
    cases h
    exact hr.visit visited fun hes => ⟨[], by simpa using hes, rfl⟩
  case case4 visited next cooled falls patience ih =>
    exact hr.visit visited fun hes => ih hes h
  case case5 =>
    cases h
    exact ⟨[], by simpa using hr, rfl⟩

/-- What every proposal keeps holds of all walks that are reached. -/
theorem keep {P : Walk σ → Prop} (hr : Reach p start w events)
    (hstep : ∀ {temperature : Float} {w w' : Walk σ} {moved : Bool},
      w.propose p temperature = .ok (w', moved) → P w → P w') (hstart : P start) : P w := by
  induction hr with
  | start => exact hstart
  | stay _ h ih => exact hstep h ih
  | move _ h ih => exact hstep h ih
  | cool _ _ _ ih => exact ih

theorem inherit {P : σ → Prop} (hr : Reach p start w events)
    (hn : ∀ x t, P x → P (p.neighbor x t).1) (hstart : P start.current ∧ P start.best) :
    P w.current ∧ P w.best :=
  hr.keep (fun h hw => propose_inherit h hn hw) hstart

end Reach

/-- A walk starts at the start of its problem, which is its best state so far and
feasible or not. -/
theorem start_eq_ok {p : Problem σ} {t : Tape} {w : Walk σ} (h : start p t = .ok w) :
    p.feasible? (p.start t).1 = some w.feasible ∧
      w = ⟨(p.start t).1, p.objective (p.start t).1, (p.start t).1, p.objective (p.start t).1,
        w.feasible, 0, 0, 0, (p.start t).2⟩ := by
  simp only [start] at h
  split at h
  case h_1 => cases h
  case h_2 feasible hf =>
    cases h
    exact ⟨hf, rfl⟩

end Walk

/-- An outcome is found with some events if it is that of a walk reached with them
from the start of the problem. -/
def Outcome.Found (p : Problem σ) (t : Tape) (events : List (Event σ)) (o : Outcome σ) : Prop :=
  ∃ start w levels final, Walk.start p t = .ok start ∧ Walk.Reach p start w events ∧
    o = .ofWalk levels final w

section
variable {p : Problem σ} {s : Settings} {t t' : Tape} {o : Outcome σ}

theorem Outcome.Found.inherit {P : σ → Prop} {events : List (Event σ)} (h : o.Found p t events)
    (hn : ∀ x t, P x → P (p.neighbor x t).1) (hstart : P (p.start t).1) : P o.best := by
  obtain ⟨start, w, levels, final, hw, hr, rfl⟩ := h
  obtain ⟨-, hw⟩ := Walk.start_eq_ok hw
  rw [hw] at hr
  exact (hr.inherit hn ⟨hstart, hstart⟩).2

/-- A search has an outcome if it is a descent to a temperature that is not above the threshold.
It leaves the tape where its walk did. -/
theorem observedSearch_eq_ok_iff {observe : ω → Event σ → ω} {seen seen' : ω} :
    observedSearch p s observe seen t = (.ok (o, seen'), t') ↔
      s.Valid ∧ ∃ start levels final w, Walk.start p t = .ok start ∧
        start.descend p s observe Settings.patience 0 s.initial seen =
          .ok (levels, final, w, seen') ∧
        ¬ final > s.threshold ∧ o = .ofWalk levels final w ∧ t' = w.tape := by
  constructor
  · intro h
    unfold observedSearch at h
    split at h
    case h_1 => cases h
    case h_2 valid =>
      split at h
      case h_1 => cases h
      case h_2 start hstart =>
        split at h
        case h_1 => cases h
        case h_2 levels final w seen₁ hw =>
          split at h
          case isTrue => cases h
          case isFalse hfrozen =>
            cases h
            exact ⟨valid, start, levels, final, w, hstart, hw, hfrozen, rfl, rfl⟩
  · rintro ⟨valid, start, levels, final, w, hstart, hw, hfrozen, rfl, rfl⟩
    have hv : s.defect? = none := valid
    simp only [observedSearch, hv, hstart, hw, if_neg hfrozen]

theorem descend_of_observedSearch {observe : ω → Event σ → ω} {seen seen' : ω}
    (h : observedSearch p s observe seen t = (.ok (o, seen'), t')) :
    s.Valid ∧ ∃ start levels final w, Walk.start p t = .ok start ∧
      start.descend p s observe Settings.patience 0 s.initial seen =
        .ok (levels, final, w, seen') ∧
      ¬ final > s.threshold ∧ o = .ofWalk levels final w := by
  obtain ⟨valid, start, levels, final, w, hstart, hw, hfrozen, ho, -⟩ :=
    observedSearch_eq_ok_iff.mp h
  exact ⟨valid, start, levels, final, w, hstart, hw, hfrozen, ho⟩

theorem found_of_observedSearch {observe : ω → Event σ → ω} {seen seen' : ω}
    (h : observedSearch p s observe seen t = (.ok (o, seen'), t')) :
    ∃ events, o.Found p t events ∧ seen' = events.foldl observe seen := by
  obtain ⟨-, start, levels, final, w, hstart, hw, -, rfl⟩ := descend_of_observedSearch h
  have hr₀ : Walk.Reach p start start [] := .start
  obtain ⟨events, hr, hseen⟩ := hr₀.descend hw
  exact ⟨events, ⟨start, w, levels, final, hstart, hr, rfl⟩, hseen⟩

/-- A traced search observes its events, the last one first. -/
theorem tracedSearch_eq_ok_iff {events : List (Event σ)} :
    tracedSearch p s t = (.ok (o, events), t') ↔
      observedSearch p s (fun seen event => event :: seen) [] t =
        (.ok (o, events.reverse), t') := by
  rcases hs : observedSearch p s (fun seen event => event :: seen) [] t with ⟨_ | ⟨o', seen⟩, tape⟩
  · simp [tracedSearch, hs, Except.map]
  · simp [tracedSearch, hs, Except.map, List.reverse_eq_iff]

theorem observed_of_tracedSearch {events : List (Event σ)}
    (h : tracedSearch p s t = (.ok (o, events), t')) :
    observedSearch p s (fun seen event => event :: seen) [] t = (.ok (o, events.reverse), t') :=
  tracedSearch_eq_ok_iff.mp h

theorem found_of_tracedSearch {events : List (Event σ)}
    (h : tracedSearch p s t = (.ok (o, events), t')) : o.Found p t events := by
  obtain ⟨events', hfound, hseen⟩ := found_of_observedSearch (observed_of_tracedSearch h)
  have heq : events = events' := by simpa using hseen
  rwa [heq]

theorem found_of_search (h : (search p s t).1 = .ok o) : ∃ events, o.Found p t events := by
  rcases hs : observedSearch p s (fun seen _ => seen) () t with ⟨_ | ⟨o', seen⟩, tape⟩
  · simp [search, hs, Except.map] at h
  · simp only [search, hs, Except.map, Except.ok.injEq] at h
    obtain ⟨events, hfound, -⟩ := found_of_observedSearch hs
    exact ⟨events, h ▸ hfound⟩

end
end Annealing
