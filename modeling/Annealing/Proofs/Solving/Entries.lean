import Annealing.Proofs.Attempts
import Annealing.Proofs.Search.Freezing
import Annealing.Proofs.Search.Run
import Annealing.Solving.Report

/-!
# The searches behind a report

After every search the stopwatch of the bench is idle, so the next measurement
can begin. Measuring never fails and never changes what is measured, and it
leaves one sample for each search. The results of a text are therefore those
of its searches, one after the other, and a report lists them in the order of
the instances.
-/
namespace Annealing.Solving

open Timing

variable {o : Options} {s : Surroundings} {text : String} {size : Float} {r : Report}

theorem run_bind_of_ok {α β ε : Type} {x : BenchT ε Id α} {a : α} {b b' : Bench}
    (h : x.run.run b = (.ok a, b')) (f : α → BenchT ε Id β) :
    (x >>= f).run.run b = (f a).run.run b' := by
  rw [ExceptT.run_bind, StateT.run_bind, h]
  rfl

theorem run_bind_of_error {α β ε : Type} {x : BenchT ε Id α} {e : ε} {b b' : Bench}
    (h : x.run.run b = (.error e, b')) (f : α → BenchT ε Id β) :
    (x >>= f).run.run b = (.error e, b') := by
  rw [ExceptT.run_bind, StateT.run_bind, h]
  rfl

/-- The length of a measurement, which takes two readings of the clock. -/
def sample (clock : Nat → Nat) (k : Nat) : Duration := clock (2 * k + 1) - clock (2 * k)

/-- The stopwatch after a number of measurements. -/
def stopwatchAfter (clock : Nat → Nat) (n : Nat) : Stopwatch where
  samples := Array.ofFn fun k : Fin n => sample clock k

/-- The bench after a number of searches. If they are not measured, nothing has happened
to it. -/
def benchAfter (measuring : Bool) (clock : Nat → Nat) (n : Nat) : Bench :=
  if measuring then { watch := stopwatchAfter clock n, clock, taken := 2 * n } else { clock }

theorem watch_benchAfter (measuring : Bool) (clock : Nat → Nat) (n : Nat) :
    (benchAfter measuring clock n).watch = if measuring then stopwatchAfter clock n else {} := by
  cases measuring <;> rfl

theorem benchAfter_zero (measuring : Bool) (clock : Nat → Nat) :
    benchAfter measuring clock 0 = { clock } := by
  cases measuring with
  | false => rfl
  | true => simp [benchAfter, stopwatchAfter]

theorem measure_run {α : Type} (a : α) (clock : Nat → Nat) (n : Nat) :
    (measure (pure a) : BenchT Failure Id α).run.run (benchAfter true clock n) =
      (.ok a, benchAfter true clock (n + 1)) := by
  have hpush : (stopwatchAfter clock (n + 1)).samples =
      (stopwatchAfter clock n).samples.push (sample clock n) := Array.ofFn_succ
  have hafter : benchAfter true clock (n + 1) =
      ⟨⟨none, (stopwatchAfter clock n).samples.push (sample clock n)⟩, clock, 2 * n + 2⟩ := by
    rw [← hpush]
    rfl
  rw [hafter]
  rfl

/-- Makes one search, as a measurement if asked for. -/
def timedSearch (measuring : Bool) (run : Thunk (Except Failure Entry)) :
    BenchT Failure Id Entry := do
  let result ← if measuring then measure (pure run.get) else pure run.get
  match result with
  | .ok entry => pure entry
  | .error failure => throw failure

theorem makeSearches_eq (measuring : Bool) (runs : List (Thunk (Except Failure Entry))) :
    makeSearches measuring runs = runs.mapM (timedSearch measuring) := rfl

theorem timedSearch_run (measuring : Bool) (run : Thunk (Except Failure Entry))
    (clock : Nat → Nat) (n : Nat) :
    (timedSearch measuring run).run.run (benchAfter measuring clock n) =
      (run.get, benchAfter measuring clock (n + 1)) := by
  cases measuring with
  | false =>
    cases h : run.get with
    | error failure =>
      simp only [timedSearch, h]
      rfl
    | ok entry =>
      simp only [timedSearch, h]
      rfl
  | true =>
    rw [timedSearch, if_pos rfl, run_bind_of_ok (measure_run run.get clock n)]
    cases run.get with
    | error failure => rfl
    | ok entry => rfl

/-- Searches have their own results in order. If all of them succeed, each has left its
measurement on the bench. -/
theorem makeSearches_run (measuring : Bool) (runs : List (Thunk (Except Failure Entry)))
    (clock : Nat → Nat) (n : Nat) :
    ∃ b : Bench, (makeSearches measuring runs).run.run (benchAfter measuring clock n) =
        (runs.mapM Thunk.get, b) ∧
      ∀ entries, runs.mapM Thunk.get = .ok entries →
        b = benchAfter measuring clock (n + entries.length) := by
  rw [makeSearches_eq]
  induction runs generalizing n with
  | nil =>
    refine ⟨benchAfter measuring clock n, rfl, ?_⟩
    intro entries hentries
    cases hentries
    rfl
  | cons run runs ih =>
    have hrun := timedSearch_run measuring run clock n
    rw [List.mapM_cons, mapM_cons_eq]
    cases hget : run.get with
    | error failure =>
      rw [hget] at hrun
      refine ⟨_, run_bind_of_error hrun _, ?_⟩
      intro entries hentries
      cases hentries
    | ok entry =>
      rw [hget] at hrun
      obtain ⟨b, hruns, hb⟩ := ih (n + 1)
      refine ⟨b, ?_⟩
      rw [run_bind_of_ok hrun]
      cases hgets : runs.mapM Thunk.get with
      | error failure =>
        rw [hgets] at hruns
        refine ⟨run_bind_of_error hruns _, ?_⟩
        intro entries hentries
        cases hentries
      | ok entries =>
        rw [hgets] at hruns
        refine ⟨run_bind_of_ok hruns _, ?_⟩
        intro all hall
        cases hall
        rw [hb entries hgets, List.length_cons, Nat.add_right_comm, Nat.add_assoc]

/-- A text is solved by its searches, one after the other, and the stopwatch has one sample
for each of them if they are measured. -/
theorem solve_eq (o : Options) (s : Surroundings) (text : String) :
    solve o s text = (searches o s text).bind fun runs => (runs.mapM Thunk.get).map fun entries =>
      ⟨entries, if o.measuring then stopwatchAfter s.clock entries.length else {}⟩ := by
  cases hs : searches o s text with
  | error failure =>
    simp only [solve, hs]
    rfl
  | ok runs =>
    obtain ⟨b, hrun, hb⟩ := makeSearches_run o.measuring runs s.clock 0
    rw [benchAfter_zero] at hrun
    simp only [solve, hs, hrun]
    change _ = (runs.mapM Thunk.get).map _
    cases hget : runs.mapM Thunk.get with
    | error failure => rfl
    | ok entries =>
      have hwatch := watch_benchAfter o.measuring s.clock entries.length
      rw [hb entries hget, Nat.zero_add]
      simp only [hwatch, Except.map]

/-- With a base seed, the seeds of the searches take nothing from the surroundings. -/
theorem seed_eq_of_base {base : UInt64} (hseed : o.seed? = some base) (s s' : Surroundings) :
    o.seed s = o.seed s' := by
  funext k
  simp only [Options.seed, hseed]

theorem searches_congr_seed {s' : Surroundings} (h : o.seed s = o.seed s') (text : String) :
    searches o s text = searches o s' text := by
  simp only [searches, h]

section
variable {σ : Type} {p : Problem σ} {seed : UInt64} {outcome : Outcome σ} {log : List Message}

theorem searchSized_found (h : searchSized p seed = .ok (outcome, log)) :
    ∃ t events, outcome.Found p t events := by
  simp only [searchSized] at h
  split at h
  case h_1 outcome' hsearch =>
    cases h
    exact ⟨_, found_of_search hsearch⟩
  case h_2 => cases h

/-- A search of known length has an outcome if every state is feasible or not. -/
theorem exists_searchSized {n : Nat} (valid : (Settings.forSize p.size).Valid)
    (count : (Settings.forSize p.size).levelCount? = some n)
    (answered : ∀ x, (p.feasible? x).isSome) (seed : UInt64) :
    ∃ r, searchSized p seed = .ok r := by
  let settings := { Settings.forSize p.size with seed? := some seed }
  have hvalid : settings.Valid := valid
  have hcount : settings.levelCount? = some n :=
    ((Settings.forSize p.size).levelCount?_withSeed _).trans count
  obtain ⟨outcome, hsearch⟩ := search_ok (p := p) (t := settings.tape 0) hvalid hcount answered
  refine ⟨(outcome, searchLog p settings (settings.tape 0) outcome), ?_⟩
  simp only [searchSized]
  rw [hsearch]

end

section
variable {ι : Type} {instances : List ι} {entry : ι → UInt64 → Except Failure Entry}
  {seed : Nat → UInt64} {entries : List Entry}

/-- The results of the searches of some instances, each with the seed of its position. -/
theorem mapM_get_eq_ok_iff :
    (instances.mapIdx fun k i => Thunk.mk fun _ => entry i (seed k)).mapM Thunk.get =
        .ok entries ↔
      List.Forall₂ (fun x e => entry x.1 (seed x.2) = .ok e) instances.zipIdx entries := by
  rw [mapM_eq_ok_iff, List.mapIdx_eq_zipIdx_map, List.forall₂_map_left_iff]
  rfl

theorem forall₂_of_mapM_get
    (h : (instances.mapIdx fun k i => Thunk.mk fun _ => entry i (seed k)).mapM Thunk.get =
      .ok entries) :
    List.Forall₂ (fun i e => i ∈ instances ∧ ∃ word, entry i word = .ok e) instances
      entries := by
  have hmem : ∀ x ∈ instances.zipIdx, x.1 ∈ instances :=
    fun x hx => List.fst_mem_of_mem_zipIdx hx
  have hentries := (List.forall₂_and_left _ _).mpr ⟨hmem, mapM_get_eq_ok_iff.mp h⟩
  have hall : List.Forall₂ (fun x e => x.1 ∈ instances ∧ ∃ word, entry x.1 word = .ok e)
      instances.zipIdx entries := hentries.imp fun x e hx => ⟨hx.1, seed x.2, hx.2⟩
  rwa [← List.forall₂_map_left_iff (f := Prod.fst)
    (R := fun i e => i ∈ instances ∧ ∃ word, entry i word = .ok e), List.zipIdx_map_fst] at hall

end

/-- There is a report unless the summary of the measurements fails. -/
theorem Solved.report_eq_ok_iff {x : Solved} : x.report size = .ok r ↔
    ∃ timing?, Summary.of? size x.watch = .ok timing? ∧
      r = ⟨x.entries.map Entry.solution, x.entries.countP (!·.feasible), timing?⟩ := by
  simp only [Solved.report, map_eq_ok_iff, mapError_eq_ok_iff, eq_comm (a := r)]

/-- A report is on the results of all searches of its text, and on their measurements if they are
measured. -/
theorem solveText_eq (o : Options) (s : Surroundings) (text : String) (size : Float) :
    solveText o s text size =
      (searches o s text).bind fun runs => (runs.mapM Thunk.get).bind fun entries =>
        Solved.report
          ⟨entries, if o.measuring then stopwatchAfter s.clock entries.length else {}⟩ size := by
  rw [solveText, solve_eq]
  cases searches o s text with
  | error failure => rfl
  | ok runs =>
    change ((runs.mapM Thunk.get).map _).bind _ = (runs.mapM Thunk.get).bind _
    cases runs.mapM Thunk.get with
    | error failure => rfl
    | ok entries => rfl

/-- Without measuring a report does not depend on the clock or the size. -/
theorem solveText_unmeasured (hmeasuring : o.measuring = false) (s : Surroundings)
    (text : String) (size : Float) :
    solveText o s text size =
      (searches o s text).bind fun runs => (runs.mapM Thunk.get).map fun entries =>
        ⟨entries.map Entry.solution, entries.countP (!·.feasible), none⟩ := by
  rw [solveText_eq, hmeasuring]
  rfl

theorem solveText_eq_ok_iff : solveText o s text size = .ok r ↔
    ∃ runs entries timing?, searches o s text = .ok runs ∧ runs.mapM Thunk.get = .ok entries ∧
      Summary.of? size (if o.measuring then stopwatchAfter s.clock entries.length else {}) =
        .ok timing? ∧
      r = ⟨entries.map Entry.solution, entries.countP (!·.feasible), timing?⟩ := by
  simp only [solveText_eq, bind_eq_ok_iff, Solved.report_eq_ok_iff, exists_and_left]

/-- A report is on the results of all searches of its text, measured or not. -/
theorem solveText_eq_ok (h : solveText o s text size = .ok r) :
    ∃ runs entries, searches o s text = .ok runs ∧ runs.mapM Thunk.get = .ok entries ∧
      r.solutions = entries.map Entry.solution ∧
      r.infeasible = entries.countP (!·.feasible) := by
  obtain ⟨runs, entries, timing?, hruns, hget, -, rfl⟩ := solveText_eq_ok_iff.mp h
  exact ⟨runs, entries, hruns, hget, rfl, rfl⟩

theorem exists_solveText (hmeasuring : o.measuring = false)
    {runs : List (Thunk (Except Failure Entry))} (hs : searches o s text = .ok runs)
    (hruns : ∀ run ∈ runs, ∃ e, run.get = .ok e) (size : Float) :
    ∃ r, solveText o s text size = .ok r := by
  obtain ⟨entries, hget⟩ := exists_mapM hruns
  rw [solveText_unmeasured hmeasuring, hs]
  exact ⟨_, map_eq_ok_iff.mpr ⟨entries, hget, rfl⟩⟩

theorem searches_knapsack (hkind : o.choice.resolve text = .knapsack)
    (h : solveText o s text size = .ok r) : ∃ instances, Knapsack.parse text = .ok instances ∧
      searches o s text =
        .ok (instances.mapIdx fun k i => Thunk.mk fun _ => knapsackEntry i (o.seed s k)) := by
  obtain ⟨runs, -, hruns, -⟩ := solveText_eq_ok h
  rw [hruns]
  simp only [searches, hkind] at hruns
  split at hruns
  case h_1 => cases hruns
  case h_2 instances hparse =>
    cases hruns
    exact ⟨instances, hparse, rfl⟩

theorem searches_satisfiability (hkind : o.choice.resolve text = .satisfiability)
    (h : solveText o s text size = .ok r) :
    ∃ instances, Satisfiability.parse text = .ok instances ∧
      searches o s text =
        .ok (instances.mapIdx fun k i => Thunk.mk fun _ => satisfiabilityEntry i (o.seed s k)) := by
  obtain ⟨runs, -, hruns, -⟩ := solveText_eq_ok h
  rw [hruns]
  simp only [searches, hkind] at hruns
  split at hruns
  case h_1 => cases hruns
  case h_2 instances hparse =>
    cases hruns
    exact ⟨instances, hparse, rfl⟩

theorem countP_congr_of_forall₂ {α β : Type} {R : α → β → Prop} {p q : β → Bool} {xs : List α}
    {ys : List β} (h : List.Forall₂ R xs ys) (hpq : ∀ x y, R x y → p y = q y) :
    ys.countP p = ys.countP q := by
  induction h with
  | nil => rfl
  | cons hxy _ ih => rw [List.countP_cons, List.countP_cons, ih, hpq _ _ hxy]

/-- What every search of an instance promises of its solution holds of the solutions in a
report, and a mark that solutions bear if they are infeasible is counted there. -/
theorem solveText_forall₂ {ι : Type} {instances : List ι}
    {entry : ι → UInt64 → Except Failure Entry} {R : ι → String → Prop} {P : String → Bool}
    (hs : searches o s text =
      .ok (instances.mapIdx fun k i => Thunk.mk fun _ => entry i (o.seed s k)))
    (h : solveText o s text size = .ok r)
    (hentry : ∀ i ∈ instances, ∀ word e, entry i word = .ok e →
      R i e.solution ∧ P e.solution = !e.feasible) :
    List.Forall₂ R instances r.solutions ∧ r.infeasible = r.solutions.countP P := by
  obtain ⟨runs, entries, hruns, hget, hsolutions, hinfeasible⟩ := solveText_eq_ok h
  cases hs.symm.trans hruns
  have hall : List.Forall₂ (fun i e => R i e.solution ∧ P e.solution = !e.feasible) instances
      entries := by
    apply (forall₂_of_mapM_get hget).imp
    rintro i e ⟨hi, word, he⟩
    exact hentry i hi word e he
  rw [hsolutions, hinfeasible, List.forall₂_map_right_iff, List.countP_map]
  exact ⟨hall.imp fun _ _ he => he.1, countP_congr_of_forall₂ hall fun _ _ he => he.2.symm⟩

end Annealing.Solving
