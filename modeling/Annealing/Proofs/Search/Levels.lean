import Annealing.Proofs.Search.Cooling
import Annealing.Proofs.Search.Guarantees
import Mathlib.Data.List.Flatten

/-!
# The levels of a search

A search that has an outcome tells its events level by level: the accepted
moves of a level, all at its temperature, and then its end. Level `k` has the
`k`-th temperature of the settings, and the numbers of the outcome can be
counted in the events.

`Walk.Counts` ties the counters of a walk to the moves it has accepted since
its start. A proposal keeps it, and so do levels and rows of levels, each of
which names the moves that it adds.
-/
namespace Annealing

variable {σ ω : Type}

/-- How often an objective exceeds the one before it, from a first one on. Differences are
binary64 differences. -/
def improvements (first : Float) (objectives : List Float) : Nat :=
  ((first :: objectives).zip objectives).countP fun (before, after) => before - after < 0.0

@[simp] theorem improvements_nil (first : Float) : improvements first [] = 0 := rfl

theorem improvements_cons (first x : Float) (xs : List Float) :
    improvements first (x :: xs) = improvements x xs + if first - x < 0.0 then 1 else 0 := by
  simp [improvements, List.countP_cons]

theorem improvements_concat (first x : Float) (xs : List Float) :
    improvements first (xs ++ [x]) =
      improvements first xs + if xs.getLastD first - x < 0.0 then 1 else 0 := by
  induction xs generalizing first with
  | nil => simp [improvements_cons]
  | cons y ys ih =>
    rw [List.cons_append, improvements_cons, improvements_cons, ih, List.getLastD_cons]
    omega

theorem improvements_le (first : Float) (xs : List Float) :
    improvements first xs ≤ xs.length := by
  refine List.countP_le_length.trans ?_
  simp

/-- The events of a level: its accepted moves, and its end. -/
def levelEvents (p : Problem σ) (s : Settings) (k : Nat) (moves : List σ) : List (Event σ) :=
  moves.map (fun x => .accepted x (p.objective x) (s.temperature k)) ++
    [.cooled (s.temperature k) (s.cool (s.temperature k))]

/-- The events of some levels, the first of which is level `k`. -/
def eventsFrom (p : Problem σ) (s : Settings) : Nat → List (List σ) → List (Event σ)
  | _, [] => []
  | k, moves :: levels => levelEvents p s k moves ++ eventsFrom p s (k + 1) levels

section
variable {p : Problem σ} {s : Settings}

theorem acceptedStates_append (xs ys : List (Event σ)) :
    acceptedStates (xs ++ ys) = acceptedStates xs ++ acceptedStates ys := List.filterMap_append

theorem acceptedStates_levelEvents (k : Nat) (moves : List σ) :
    acceptedStates (levelEvents p s k moves) = moves := by
  rw [levelEvents, acceptedStates_concat_cooled, acceptedStates, List.filterMap_map]
  exact List.filterMap_some

theorem acceptedStates_eventsFrom (k : Nat) (levels : List (List σ)) :
    acceptedStates (eventsFrom p s k levels) = levels.flatten := by
  induction levels generalizing k with
  | nil => rfl
  | cons moves levels ih =>
    rw [eventsFrom, acceptedStates_append, acceptedStates_levelEvents, ih, List.flatten_cons]

/-- The last event is the end of the last level. -/
theorem getLast?_eventsFrom (k n : Nat) (levels : List (List σ)) (h : levels.length = n + 1) :
    (eventsFrom p s k levels).getLast? =
      some (.cooled (s.temperature (k + n)) (s.temperature (k + n + 1))) := by
  induction levels generalizing k n with
  | nil => cases h
  | cons moves levels ih =>
    cases n with
    | zero =>
      have hnil : levels = [] := List.length_eq_zero_iff.mp (Nat.succ.inj h)
      simp [hnil, eventsFrom, levelEvents, Settings.temperature]
    | succ n =>
      have hlast := ih (k + 1) n (Nat.succ.inj h)
      rw [show k + 1 + n = k + (n + 1) by omega] at hlast
      rw [eventsFrom, List.getLast?_append, hlast, Option.some_or]

end

namespace Walk

/-- The counters of a walk from a start that has accepted some moves. -/
structure Counts (p : Problem σ) (start : σ) (proposals : Nat) (moves : List σ) (w : Walk σ) :
    Prop where
  proposals_eq : w.proposals = proposals
  accepted_eq : w.accepted = moves.length
  objective_eq : w.objective = (moves.map p.objective).getLastD (p.objective start)
  improving_eq : w.improving = improvements (p.objective start) (moves.map p.objective)

namespace Counts

variable {p : Problem σ} {s : Settings} {observe : ω → Event σ → ω} {start : σ} {n : Nat}
  {moves : List σ} {temperature : Float} {w w' : Walk σ} {seen seen' : ω}

theorem stay (h : w.Counts p start n moves) (tape : Tape) :
    (w.stay tape).Counts p start (n + 1) moves :=
  ⟨congrArg (· + 1) h.proposals_eq, h.accepted_eq, h.objective_eq, h.improving_eq⟩

theorem move (h : w.Counts p start n moves) (x : σ) :
    (w.move x (p.objective x)).Counts p start n (moves ++ [x]) where
  proposals_eq := h.proposals_eq
  accepted_eq := by simp [Walk.move, h.accepted_eq]
  objective_eq := by simp [Walk.move]
  improving_eq := by
    rw [List.map_append, List.map_singleton, improvements_concat, ← h.objective_eq,
      ← h.improving_eq]
    simp only [Walk.move]
    split <;> rfl

theorem improving_le (h : w.Counts p start n moves) : w.improving ≤ w.accepted := by
  rw [h.improving_eq, h.accepted_eq, ← List.length_map p.objective]
  exact improvements_le _ _

/-- A proposal counts as one, and an accepted one also as a move. -/
theorem propose {moved : Bool} (h : w.Counts p start n moves)
    (hw : w.propose p temperature = .ok (w', moved)) :
    moved = false ∧ w'.Counts p start (n + 1) moves ∨
      moved = true ∧ w'.objective = p.objective w'.current ∧
        w'.Counts p start (n + 1) (moves ++ [w'.current]) := by
  rcases propose_cases hw with ⟨-, heq⟩ | ⟨-, -, heq⟩ | ⟨-, -, heq⟩
  · cases heq
    exact .inl ⟨rfl, h.stay _⟩
  · cases heq
    exact .inl ⟨rfl, h.stay _⟩
  · cases heq
    exact .inr ⟨rfl, rfl, (h.stay _).move _⟩

/-- A level adds its proposals, and the moves that it reports. -/
theorem level {k : Nat} (h : w.Counts p start n moves)
    (hw : w.level p observe temperature k seen = .ok (w', seen')) :
    ∃ more, more.length ≤ k ∧ w'.Counts p start (n + k) (moves ++ more) ∧
      seen' = (more.map fun x => .accepted x (p.objective x) temperature).foldl observe seen := by
  induction k generalizing w seen n moves with
  | zero =>
    cases hw
    exact ⟨[], le_rfl, by simpa using h, rfl⟩
  | succ k ih =>
    rw [Walk.level] at hw
    split at hw
    case h_1 => cases hw
    case h_2 w₁ hw₁ =>
      obtain ⟨hmoved, -⟩ | ⟨-, hobjective, h₁⟩ := h.propose hw₁
      · cases hmoved
      · obtain ⟨more, hlength, h', hseen⟩ := ih h₁ hw
        refine ⟨w₁.current :: more, Nat.succ_le_succ hlength, ?_, ?_⟩
        · simpa [Nat.add_assoc, Nat.add_comm 1 k] using h'
        · rw [hseen, List.map_cons, List.foldl_cons, hobjective]
    case h_3 w₁ hw₁ =>
      obtain ⟨-, h₁⟩ | ⟨hmoved, -⟩ := h.propose hw₁
      · obtain ⟨more, hlength, h', hseen⟩ := ih h₁ hw
        refine ⟨more, Nat.le_succ_of_le hlength, ?_, hseen⟩
        simpa [Nat.add_assoc, Nat.add_comm 1 k] using h'
      · cases hmoved

/-- So do levels in a row. -/
theorem levels {k count : Nat} {r : Float × Walk σ × ω} (h : w.Counts p start n moves)
    (hw : w.levels p s observe count (s.temperature k) seen = .ok r) :
    ∃ levels : List (List σ), levels.length = count ∧
      (∀ moves ∈ levels, moves.length ≤ s.proposals) ∧
      r.2.1.Counts p start (n + count * s.proposals) (moves ++ levels.flatten) ∧
      r.2.2 = (eventsFrom p s k levels).foldl observe seen := by
  induction count generalizing k w seen n moves with
  | zero =>
    cases hw
    exact ⟨[], rfl, by simp, by simpa using h, rfl⟩
  | succ count ih =>
    rw [Walk.levels] at hw
    split at hw
    case h_1 => cases hw
    case h_2 w₁ seen₁ hw₁ =>
      obtain ⟨more, hlength, h₁, hseen₁⟩ := h.level hw₁
      obtain ⟨levels, hcount, hlengths, h', hseen⟩ := ih (k := k + 1) h₁ hw
      have hproposals : n + s.proposals + count * s.proposals = n + (count + 1) * s.proposals := by
        rw [Nat.succ_mul]
        omega
      refine ⟨more :: levels, congrArg (· + 1) hcount, ?_, ?_, ?_⟩
      · exact List.forall_mem_cons.mpr ⟨hlength, hlengths⟩
      · rwa [hproposals, List.append_assoc] at h'
      · rw [hseen, hseen₁, eventsFrom, levelEvents, List.foldl_append, List.foldl_append,
          List.foldl_cons, List.foldl_nil]

end Counts

/-- A descent goes on as long as the temperature is above the threshold. -/
theorem above_of_descend {p : Problem σ} {s : Settings} {observe : ω → Event σ → ω}
    {patience passed : Nat} {temperature : Float} {w : Walk σ} {seen : ω}
    {r : Nat × Float × Walk σ × ω}
    (h : descend p s observe patience passed temperature w seen = .ok r) {k : Nat}
    (hk : passed + k < r.1) : s.cool^[k] temperature > s.threshold := by
  fun_induction Walk.descend p s observe patience passed temperature w seen generalizing k
  case case1 => cases h
  case case2 above w' seen' visited next cooled falls ih =>
    cases k with
    | zero => exact above
    | succ k => exact ih h (by omega)
  case case3 above w' seen' visited next cooled falls =>
    cases h
    obtain rfl : k = 0 := by omega
    exact above
  case case4 above w' seen' visited next cooled falls patience ih =>
    cases k with
    | zero => exact above
    | succ k => exact ih h (by omega)
  case case5 =>
    cases h
    omega

theorem start_counts {p : Problem σ} {t : Tape} {w : Walk σ} (h : start p t = .ok w) :
    w.Counts p (p.start t).1 0 [] := by
  rw [(start_eq_ok h).2]
  exact ⟨rfl, rfl, rfl, rfl⟩

end Walk

/-- What an outcome and the events of its search say about each other, once the events are
divided into the moves of levels. -/
structure Outcome.Recounts (p : Problem σ) (s : Settings) (start : σ) (levels : List (List σ))
    (events : List (Event σ)) (o : Outcome σ) : Prop where
  events_eq : events = eventsFrom p s 0 levels
  levels_eq : o.levels = levels.length
  moves_le : ∀ moves ∈ levels, moves.length ≤ s.proposals
  above : ∀ k < o.levels, s.temperature k > s.threshold
  last_cooled : ∃ before, events.getLast? = some (.cooled before o.finalTemperature)
  final_eq : o.finalTemperature = s.temperature o.levels
  frozen : ¬ o.finalTemperature > s.threshold
  proposals_eq : o.proposals = o.levels * s.proposals
  accepted_eq : o.accepted = (acceptedStates events).length
  improving_eq :
    o.improving = improvements (p.objective start) ((acceptedStates events).map p.objective)
  improving_le : o.improving ≤ o.accepted
  accepted_le : o.accepted ≤ o.proposals

theorem length_flatten_le {α : Type} {xss : List (List α)} {n : Nat}
    (h : ∀ xs ∈ xss, xs.length ≤ n) : xss.flatten.length ≤ xss.length * n := by
  rw [List.length_flatten]
  have hsum := List.sum_le_card_nsmul (xss.map List.length) n (by simpa using h)
  simpa using hsum

/-- The events of a search are those of its levels, and the numbers of its outcome can be
counted in them. -/
theorem tracedSearch_recounts {p : Problem σ} {s : Settings} {t t' : Tape} {o : Outcome σ}
    {events : List (Event σ)} (h : tracedSearch p s t = (.ok (o, events), t')) :
    ∃ levels, o.Recounts p s (p.start t).1 levels events := by
  obtain ⟨valid, start, count, final, w, hstart, hw, hfrozen, rfl⟩ :=
    descend_of_observedSearch (observed_of_tracedSearch h)
  obtain ⟨-, hlevels⟩ := Walk.levels_of_descend hw
  rw [Nat.sub_zero] at hlevels
  have habove : ∀ k < count, s.temperature k > s.threshold := by
    intro k hk
    rw [Settings.temperature_eq_iterate]
    exact Walk.above_of_descend hw (by simpa using hk)
  have hfinal : final = s.temperature count := by
    rw [Settings.temperature_eq_iterate]
    exact Walk.levels_temperature hlevels
  obtain ⟨levels, hlength, hmoves, hcounts, hevents⟩ :=
    (Walk.start_counts hstart).levels (k := 0) hlevels
  change levels.length = count at hlength
  simp only [Nat.zero_add, List.nil_append] at hcounts
  have hstory : events = eventsFrom p s 0 levels := by simpa using hevents
  have hstates : acceptedStates events = levels.flatten := by
    rw [hstory, acceptedStates_eventsFrom]
  -- The initial temperature is above the threshold, so there is a first level.
  obtain ⟨n, rfl⟩ : ∃ n, count = n + 1 := by
    refine Nat.exists_eq_succ_of_ne_zero ?_
    rintro rfl
    obtain ⟨c, u, hexact⟩ := valid.exists_exact
    exact hfrozen (hfinal ▸ hexact.threshold_lt)
  have hlast := getLast?_eventsFrom (p := p) (s := s) 0 n levels hlength
  rw [← hstory, Nat.zero_add, ← hfinal] at hlast
  refine ⟨levels, hstory, hlength.symm, hmoves, habove, ⟨_, hlast⟩, hfinal, hfrozen,
    hcounts.proposals_eq, ?_, ?_, ?_, ?_⟩
  · rw [hstates]
    exact hcounts.accepted_eq
  · rw [hstates]
    exact hcounts.improving_eq
  · exact hcounts.improving_le
  · have hle := length_flatten_le hmoves
    rw [hlength] at hle
    exact (hcounts.accepted_eq.trans_le hle).trans_eq hcounts.proposals_eq.symm

/-- Counts up to two and never gets past three, which is infeasible. -/
def hurdle : Problem Nat := { counting with feasible? := fun n => some (n != 3) }

/-- Two proposals at each of two levels. -/
def twoLevels : Settings := { oneLevel with initial := 4.0, proposals := 2 }

theorem tracedSearch_hurdle : tracedSearch hurdle twoLevels (.cyclic #[]) =
    (.ok (⟨2, 1.0, true, 2, 4, 2, 4.0 * 0.5 * 0.5, 2, 1⟩,
      [.accepted 1 0.0 4.0, .accepted 2 1.0 4.0, .cooled 4.0 (4.0 * 0.5),
        .cooled (4.0 * 0.5) (4.0 * 0.5 * 0.5)]), .cyclic #[]) := by
  have hvalid : twoLevels.Valid := by decide +kernel
  have hcount : twoLevels.levelCount? = some 2 := by decide +kernel
  have hle : (0.0 - 0.0 : Float) ≤ 0.0 ∧ (0.0 - 1.0 : Float) ≤ 0.0 := by decide +kernel
  have hlt : ¬ (0.0 : Float) < 0.0 ∧ (0.0 : Float) < 1.0 := by decide +kernel
  have himproving : ¬ (0.0 - 0.0 : Float) < 0.0 ∧ (0.0 - 1.0 : Float) < 0.0 := by decide +kernel
  have hstart : Walk.start hurdle (.cyclic #[]) =
      .ok ⟨0, 0.0, 0, 0.0, true, 0, 0, 0, .cyclic #[]⟩ := rfl
  refine tracedSearch_eq_levels (r := (_, ⟨2, 1.0, 2, 1.0, true, 4, 2, 1, .cyclic #[]⟩,
    [.cooled _ _, .cooled _ _, .accepted _ _ _, .accepted _ _ _])) hvalid hcount hstart ?_
  simp [Walk.levels, Walk.level, Walk.propose, acceptMove, Walk.move, Settings.cool, hurdle,
    counting, twoLevels, oneLevel, hle, hlt, himproving]

theorem tracedSearch_recounts_hurdle :
    ∃ o events t', tracedSearch hurdle twoLevels (.cyclic #[]) = (.ok (o, events), t') ∧
      (o.levels, o.proposals, o.accepted, o.improving) = (2, 4, 2, 1) ∧
      ∃ levels, o.Recounts hurdle twoLevels 0 levels events :=
  ⟨_, _, _, tracedSearch_hurdle, rfl, tracedSearch_recounts tracedSearch_hurdle⟩

end Annealing
