import Annealing.Failure
import Annealing.Proofs.Search.Freezing
import Annealing.Proofs.Search.Held

/-!
# What an outcome promises

The outcome of a search is read off the walk behind it. `Outcome.Sound` says
what its feasibility flag, its best state and its last state mean, and
`tracedSearch_best` that its best state is the first maximum among the states
the search has held. Neither depends on the problem, the settings or the tape.
-/
namespace Annealing

variable {σ ω : Type}

theorem Outcome.Found.tracks {p : Problem σ} {t : Tape} {events : List (Event σ)}
    {o : Outcome σ} (h : o.Found p t events) :
    ∃ w levels final, w.Tracks p (p.start t).1 (acceptedStates events) ∧
      o = .ofWalk levels final w := by
  obtain ⟨start, w, levels, final, hstart, hr, ho⟩ := h
  exact ⟨w, levels, final, hr.tracks hstart, ho⟩

theorem Outcome.Found.accepted_inherit {P : σ → Prop} {p : Problem σ} {t : Tape}
    {events : List (Event σ)} {o : Outcome σ} (h : o.Found p t events)
    (hn : ∀ x t, P x → P (p.neighbor x t).1) (hstart : P (p.start t).1) :
    ∀ x ∈ acceptedStates events, P x := by
  obtain ⟨start, w, levels, final, hw, hr, rfl⟩ := h
  obtain ⟨-, hw⟩ := Walk.start_eq_ok hw
  rw [hw] at hr
  exact hr.accepted_inherit hn ⟨hstart, hstart⟩

/-- No accepted state has a larger objective than the best one. -/
theorem Outcome.Found.not_objective_gt {p : Problem σ} {t : Tape} {events : List (Event σ)}
    {o : Outcome σ} (h : o.Found p t events) :
    ∀ x ∈ acceptedStates events, ¬ p.objective x > p.objective o.best := by
  intro x hx
  obtain ⟨w, levels, final, hw, rfl⟩ := h.tracks
  have hheld : x ∈ p.held (p.start t).1 (acceptedStates events) := by
    unfold Problem.held
    split
    · exact List.mem_cons_of_mem _ hx
    · exact hx
  have hl := hw.leader_eq
  rw [hw.feasible_iff.mpr (List.ne_nil_of_mem hheld), if_pos rfl] at hl
  obtain ⟨-, -, -, -, hall⟩ := leader_spec hl
  exact hall x hheld

/-- What the fields of an outcome mean for a search that started at a state and
accepted others. -/
structure Outcome.Sound (p : Problem σ) (start : σ) (accepted : List σ) (o : Outcome σ) :
    Prop where
  accepted_feasible : ∀ x ∈ accepted, p.feasible? x = some true
  last_eq : o.last = accepted.getLastD start
  feasible_iff : o.feasible = true ↔ p.feasible? start = some true ∨ accepted ≠ []
  best_feasible : o.feasible = true → p.feasible? o.best = some true
  of_infeasible : o.feasible = false → o.accepted = 0 ∧ o.best = start ∧ o.last = start

theorem Outcome.Found.sound {p : Problem σ} {t : Tape} {events : List (Event σ)}
    {o : Outcome σ} (h : o.Found p t events) :
    o.Sound p (p.start t).1 (acceptedStates events) := by
  obtain ⟨w, levels, final, hw, rfl⟩ := h.tracks
  have hiff := hw.feasible_iff
  rw [Ne, Problem.held_eq_nil_iff] at hiff
  refine ⟨hw.accepted_feasible, hw.current_eq, ?_, ?_, ?_⟩
  · rw [feasible_ofWalk, hiff]
    tauto
  · intro hf
    rw [feasible_ofWalk] at hf
    have hl := hw.leader_eq
    rw [hf, if_pos rfl] at hl
    exact Problem.feasible_of_mem_held hw.accepted_feasible (leader_mem hl)
  · intro hf
    rw [feasible_ofWalk] at hf
    have hnil : acceptedStates events = [] := by
      rw [hf] at hiff
      tauto
    refine ⟨?_, hw.best_of_infeasible hf, ?_⟩
    · rw [accepted_ofWalk, hw.accepted_eq, hnil, List.length_nil]
    · rw [last_ofWalk, hw.current_eq, hnil, List.getLastD_nil]

theorem observedSearch_refused {p : Problem σ} {s : Settings} {t : Tape} {d : Settings.Defect}
    (hd : s.defect? = some d) (observe : ω → Event σ → ω) (seen : ω) :
    observedSearch p s observe seen t = (.error (.refused d), t) := by
  simp only [observedSearch, hd]

theorem Engine.search_refused {e : Engine σ} (h : e.problem? = none ∨ ¬ e.settings.Valid)
    (t : Tape) : ∃ stop message, Failure.ofStop stop = .configuration message ∧
      e.search t = (.error stop, t) := by
  cases hp : e.problem? with
  | none => exact ⟨.noProblem, _, rfl, by simp only [Engine.search, hp]⟩
  | some p =>
    have hv : ¬ e.settings.Valid := h.resolve_left (by simp [hp])
    obtain ⟨d, hd⟩ := Option.ne_none_iff_exists'.mp hv
    refine ⟨.refused d, _, rfl, ?_⟩
    simp only [Engine.search, hp, Annealing.search, observedSearch_refused hd]
    rfl

/-- Counts upwards from an infeasible zero; from two on all numbers are equally good. -/
def counting : Problem Nat where
  size := 1
  start t := (0, t)
  neighbor n t := (n + 1, t)
  feasible? n := some (n != 0)
  objective n := if n < 2 then 0.0 else 1.0

/-- Three proposals at one level. -/
def oneLevel : Settings where
  initial := 2.0
  threshold := 1.0
  factor := 0.5
  proposals := 3

theorem tracedSearch_counting : tracedSearch counting oneLevel (.cyclic #[]) =
    (.ok (⟨2, 1.0, true, 3, 3, 1, 2.0 * 0.5, 3, 1⟩,
      [.accepted 1 0.0 2.0, .accepted 2 1.0 2.0, .accepted 3 1.0 2.0,
        .cooled 2.0 (2.0 * 0.5)]), .cyclic #[]) := by
  have hvalid : oneLevel.Valid := by decide +kernel
  have hcount : oneLevel.levelCount? = some 1 := by decide +kernel
  have hle : (0.0 - 0.0 : Float) ≤ 0.0 ∧ (0.0 - 1.0 : Float) ≤ 0.0 ∧
      (1.0 - 1.0 : Float) ≤ 0.0 := by decide +kernel
  have hlt : (0.0 : Float) < 1.0 ∧ ¬ (1.0 : Float) < 1.0 := by decide +kernel
  have himproving : ¬ (0.0 - 0.0 : Float) < 0.0 ∧ (0.0 - 1.0 : Float) < 0.0 ∧
      ¬ (1.0 - 1.0 : Float) < 0.0 := by decide +kernel
  have hstart : Walk.start counting (.cyclic #[]) =
      .ok ⟨0, 0.0, 0, 0.0, false, 0, 0, 0, .cyclic #[]⟩ := rfl
  refine tracedSearch_eq_levels (r := (_, ⟨3, 1.0, 2, 1.0, true, 3, 3, 1, .cyclic #[]⟩,
    [.cooled _ _, .accepted _ _ _, .accepted _ _ _, .accepted _ _ _])) hvalid hcount hstart ?_
  simp [Walk.levels, Walk.level, Walk.propose, acceptMove, Walk.move, Settings.cool, counting,
    oneLevel, hle, hlt, himproving]

/-- A search is sound, and one that cannot begin is refused as a misconfiguration
and leaves the tape as it is. -/
theorem tracedSearch_sound (p : Problem σ) (s : Settings) (t : Tape) :
    (∀ o events t', tracedSearch p s t = (.ok (o, events), t') →
      o.Sound p (p.start t).1 (acceptedStates events)) ∧
    (¬ s.Valid → ∃ stop message, Failure.ofStop stop = .configuration message ∧
      ∀ {ω : Type} (observe : ω → Event σ → ω) (seen : ω),
        observedSearch p s observe seen t = (.error stop, t)) ∧
    (∀ e : Engine σ, e.problem? = none ∨ ¬ e.settings.Valid →
      ∃ stop message, Failure.ofStop stop = .configuration message ∧
        e.search t = (.error stop, t)) := by
  refine ⟨?_, ?_, ?_⟩
  · intro o events t' h
    exact (found_of_tracedSearch h).sound
  · intro hv
    obtain ⟨d, hd⟩ := Option.ne_none_iff_exists'.mp hv
    exact ⟨.refused d, _, rfl, observedSearch_refused hd⟩
  · intro e he
    exact Engine.search_refused he t

theorem tracedSearch_sound_counting :
    (∃ o events t', tracedSearch counting oneLevel (.cyclic #[]) = (.ok (o, events), t') ∧
      acceptedStates events = [1, 2, 3] ∧ o.Sound counting 0 [1, 2, 3]) ∧
    (¬ { oneLevel with proposals := 0 }.Valid ∧
      ∃ stop message, Failure.ofStop stop = .configuration message ∧
        ∀ (observe : Nat → Event Nat → Nat) (seen : Nat),
          observedSearch counting { oneLevel with proposals := 0 } observe seen (.cyclic #[]) =
            (.error stop, .cyclic #[])) ∧
    (∃ stop message, Failure.ofStop stop = .configuration message ∧
      ({ settings := oneLevel } : Engine Nat).search (.cyclic #[]) =
        (.error stop, .cyclic #[])) := by
  have hv : ¬ { oneLevel with proposals := 0 }.Valid := by decide +kernel
  refine ⟨⟨_, _, _, tracedSearch_counting, rfl, ?_⟩, ⟨hv, ?_⟩, ?_⟩
  · exact (tracedSearch_sound counting oneLevel (.cyclic #[])).1 _ _ _ tracedSearch_counting
  · obtain ⟨stop, message, hstop, h⟩ :=
      (tracedSearch_sound counting { oneLevel with proposals := 0 } (.cyclic #[])).2.1 hv
    exact ⟨stop, message, hstop, h⟩
  · exact (tracedSearch_sound counting oneLevel (.cyclic #[])).2.2 { settings := oneLevel }
      (Or.inl rfl)

/-- The best state is the first maximum of the feasible states held, and the
objective of an infeasible start has no say in which one it is. -/
theorem tracedSearch_best {p : Problem σ} {s : Settings} {t t' : Tape} {o : Outcome σ}
    {events : List (Event σ)} (h : tracedSearch p s t = (.ok (o, events), t'))
    (hne : p.held (p.start t).1 (acceptedStates events) ≠ []) :
    let held := p.held (p.start t).1 (acceptedStates events)
    o.best ∈ held ∧ o.bestObjective = p.objective o.best ∧
      (∀ x ∈ held, ¬ p.objective x > o.bestObjective) ∧
      (∃ before after, held = before ++ o.best :: after ∧
        ∀ x ∈ before, ¬ p.objective x ≥ o.bestObjective) ∧
      leader p.objective held = some o.best ∧
      (p.feasible? (p.start t).1 = some false → ∀ f : σ → Float,
        (∀ x, x ≠ (p.start t).1 → f x = p.objective x) → leader f held = some o.best) := by
  intro held
  obtain ⟨w, levels, final, hw, rfl⟩ := (found_of_tracedSearch h).tracks
  have hl : leader p.objective held = some w.best := by
    rw [hw.leader_eq, if_pos (hw.feasible_iff.mpr hne)]
  obtain ⟨before, after, hsplit, hbefore, hall⟩ := leader_spec hl
  rw [Outcome.best_ofWalk, Outcome.bestObjective_ofWalk, hw.bestObjective_eq]
  refine ⟨leader_mem hl, rfl, hall, ⟨before, after, hsplit, hbefore⟩, hl, ?_⟩
  intro hstart f hf
  rw [← hl]
  apply leader_congr
  intro x hx
  apply hf
  rintro rfl
  have hx' := Problem.feasible_of_mem_held hw.accepted_feasible hx
  rw [hstart] at hx'
  cases hx'

theorem tracedSearch_best_counting :
    counting.held 0 [1, 2, 3] = [1, 2, 3] ∧ counting.feasible? 0 = some false ∧
      (∀ x ∈ [1, 2, 3], ¬ counting.objective x > 1.0) ∧
      (∃ before after, [1, 2, 3] = before ++ 2 :: after ∧
        ∀ x ∈ before, ¬ counting.objective x ≥ 1.0) ∧
      ∀ f : Nat → Float, (∀ x, x ≠ 0 → f x = counting.objective x) →
        leader f [1, 2, 3] = some 2 := by
  have h := tracedSearch_best tracedSearch_counting (by decide)
  exact ⟨rfl, rfl, h.2.2.1, h.2.2.2.1, h.2.2.2.2.2 rfl⟩

end Annealing
