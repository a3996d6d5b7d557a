import Annealing.Batch.Pool
import Annealing.Proofs.Batch.Orders

/-!
# Runs of a pool

A run starts with a scheduled queue and makes any steps that the pool may do.
`Pool.Sound` is kept by every step. It says that the counter by which the pool
decides is the number of running workers, and so it bounds the workers, keeps
the order of the starts and accounts for every job. Each step takes one from
`Pool.remaining`, and no pool is stuck before it is done. So every run is
finite, all complete ones have the same number of steps, and each of them
receives one report for each job. The runner makes one of these runs.
-/
namespace Annealing.Batch

@[simp] theorem Ending.job_report (e : Ending) (job : Job) : (e.report job).job = job := by
  cases e <;> rfl

namespace Pool

variable {limit : Nat} {work : Job → Ending} {jobs : List Job} {p q : Pool}

/-- The pool with which a run starts. -/
abbrev initial (jobs : List Job) : Pool := { queue := schedule jobs }

/-- What holds of a pool at every moment of a run. -/
structure Sound (limit : Nat) (work : Job → Ending) (jobs : List Job) (p : Pool) : Prop where
  counted : p.inFlight = p.running.length
  bounded : p.inFlight ≤ slots limit
  started_eq : p.started ++ p.queue = schedule jobs
  accounted : (p.running ++ p.reports.map JobReport.job).Perm p.started
  reported : ∀ r ∈ p.reports, r = (work r.job).report r.job
  full : p.phase = .waiting → p.queue = [] ∨ p.inFlight = slots limit
  busy : p.phase = .waiting → p.inFlight ≠ 0
  idle : p.phase = .done → p.queue = [] ∧ p.inFlight = 0

theorem slots_pos (limit : Nat) : 0 < slots limit := by
  unfold slots
  omega

theorem not_canStart_iff (h : p.inFlight ≤ slots limit) :
    ¬ p.CanStart limit ↔ p.queue = [] ∨ p.inFlight = slots limit := by
  have hfull : ¬ p.inFlight < slots limit ↔ p.inFlight = slots limit := by omega
  rw [CanStart, not_and_or, hfull, not_not, or_comm]

namespace Sound

theorem initial (limit : Nat) (work : Job → Ending) (jobs : List Job) :
    Sound limit work jobs (initial jobs) where
  counted := rfl
  bounded := Nat.zero_le _
  started_eq := rfl
  accounted := .refl _
  reported := by simp
  full := by simp
  busy := by simp
  idle := by simp

/-- The counter is zero exactly if no worker is running. -/
theorem inFlight_eq_zero_iff (h : Sound limit work jobs p) : p.inFlight = 0 ↔ p.running = [] := by
  rw [h.counted, List.length_eq_zero_iff]

theorem step (h : Sound limit work jobs p) (hs : Step limit work p q) :
    Sound limit work jobs q := by
  cases hs with
  | @start job rest hphase hfree hqueue =>
    refine ⟨?_, hfree, ?_, ?_, h.reported, ?_, ?_, ?_⟩
    · rw [h.counted, List.length_append, List.length_singleton]
    · have hstarted := h.started_eq
      rw [hqueue] at hstarted
      simpa using hstarted
    · have hmove : (p.running ++ [job] ++ p.reports.map JobReport.job).Perm
          (p.running ++ p.reports.map JobReport.job ++ [job]) := by
        rw [List.append_assoc, List.append_assoc]
        exact List.perm_append_comm.append_left p.running
      exact hmove.trans (h.accounted.append_right [job])
    all_goals simp [hphase]
  | wait hphase hstart hbusy =>
    have hfull := (not_canStart_iff h.bounded).mp hstart
    exact ⟨h.counted, h.bounded, h.started_eq, h.accounted, h.reported, fun _ => hfull,
      fun _ => hbusy, nofun⟩
  | @receive job before after hphase hrunning =>
    refine ⟨?_, (Nat.sub_le _ _).trans h.bounded, h.started_eq, ?_, ?_, nofun, nofun, nofun⟩
    · have hcounted := h.counted
      rw [hrunning] at hcounted
      simp only [hcounted, List.length_append, List.length_cons]
      omega
    · have hmove : (before ++ after ++ (p.reports.map JobReport.job ++ [job])).Perm
          (before ++ job :: after ++ p.reports.map JobReport.job) := by
        rw [← List.append_assoc]
        refine (List.perm_append_singleton job _).trans ?_
        exact List.perm_middle.symm.append_right _
      have haccounted := h.accounted
      rw [hrunning] at haccounted
      simpa using hmove.trans haccounted
    · intro r hr
      rcases List.mem_append.mp hr with hr | hr
      · exact h.reported r hr
      · rw [List.mem_singleton.mp hr, Ending.job_report]
  | finish hphase hstart hidle =>
    have hqueue : p.queue = [] := by
      rcases (not_canStart_iff h.bounded).mp hstart with hqueue | hfull
      · exact hqueue
      · have hpos := slots_pos limit
        omega
    exact ⟨h.counted, h.bounded, h.started_eq, h.accounted, h.reported, nofun, nofun,
      fun _ => ⟨hqueue, hidle⟩⟩

/-- Queued, running and reported jobs are all the jobs. -/
theorem perm (h : Sound limit work jobs p) :
    (p.queue ++ p.running ++ p.reports.map JobReport.job).Perm jobs := by
  have hstarted : (p.queue ++ p.started).Perm jobs := by
    have hperm := schedule_perm jobs
    rw [← h.started_eq] at hperm
    exact List.perm_append_comm.trans hperm
  rw [List.append_assoc]
  exact (h.accounted.append_left p.queue).trans hstarted

/-- A pool that is not done can make a step. -/
theorem progress (h : Sound limit work jobs p) (hp : p.phase ≠ .done) :
    ∃ q, Step limit work p q := by
  cases hphase : p.phase with
  | filling =>
    by_cases hstart : p.CanStart limit
    · obtain ⟨job, rest, hqueue⟩ := List.exists_cons_of_ne_nil hstart.2
      exact ⟨_, .start hphase hstart.1 hqueue⟩
    · by_cases hidle : p.inFlight = 0
      · exact ⟨_, .finish hphase hstart hidle⟩
      · exact ⟨_, .wait hphase hstart hidle⟩
  | waiting =>
    obtain ⟨job, rest, hrunning⟩ :=
      List.exists_cons_of_ne_nil (mt h.inFlight_eq_zero_iff.mpr (h.busy hphase))
    exact ⟨_, @Step.receive limit work p job [] rest hphase hrunning⟩
  | done => exact absurd hphase hp

end Sound

/-- How many steps a pool has still to make. -/
def remaining (p : Pool) : Nat :=
  3 * p.queue.length + 2 * p.running.length + if p.phase = .filling then 1 else 0

theorem Sound.done_iff (h : Sound limit work jobs p) : p.phase = .done ↔ p.remaining = 0 := by
  constructor
  · intro hphase
    obtain ⟨hqueue, hidle⟩ := h.idle hphase
    simp [remaining, hqueue, h.inFlight_eq_zero_iff.mp hidle, hphase]
  · intro hremaining
    have hrunning : p.running = [] := by
      apply List.eq_nil_of_length_eq_zero
      unfold remaining at hremaining
      omega
    cases hphase : p.phase with
    | filling => simp [remaining, hphase] at hremaining
    | waiting => exact absurd (h.inFlight_eq_zero_iff.mpr hrunning) (h.busy hphase)
    | done => rfl

theorem Step.remaining_eq (hs : Step limit work p q) : q.remaining + 1 = p.remaining := by
  cases hs with
  | start hphase hfree hqueue =>
    simp only [remaining, hphase, hqueue, List.length_append, List.length_cons, List.length_nil]
    omega
  | wait hphase => simp [remaining, hphase]
  | receive hphase hrunning =>
    simp only [remaining, hphase, hrunning, List.length_append, List.length_cons]
    simp
    omega
  | finish hphase => simp [remaining, hphase]

theorem Step.length_reports (hs : Step limit work p q) :
    q.reports.length = if p.phase = .waiting then p.reports.length + 1 else p.reports.length := by
  cases hs with
  | start hphase => simp [hphase]
  | wait hphase => simp [hphase]
  | receive hphase => simp [hphase]
  | finish hphase => simp [hphase]

/-- The runs from a pool, with the numbers of their steps and of the reports received in
them. A waiting pool does nothing else than receive a report. -/
inductive Run (limit : Nat) (work : Job → Ending) (p : Pool) : Pool → Nat → Nat → Prop
  | start : Run limit work p p 0 0
  | step {q r : Pool} {steps receipts : Nat} :
      Run limit work p q steps receipts → Step limit work q r →
      Run limit work p r (steps + 1) (if q.phase = .waiting then receipts + 1 else receipts)

namespace Run

variable {steps receipts : Nat}

theorem sound (h : Run limit work (initial jobs) p steps receipts) :
    Sound limit work jobs p := by
  induction h with
  | start => exact .initial limit work jobs
  | step _ hs ih => exact ih.step hs

theorem steps_eq (h : Run limit work p q steps receipts) :
    q.remaining + steps = p.remaining := by
  induction h with
  | start => rfl
  | step _ hs ih =>
    have hremaining := hs.remaining_eq
    omega

theorem receipts_eq (h : Run limit work p q steps receipts) :
    q.reports.length = p.reports.length + receipts := by
  induction h with
  | start => rfl
  | @step q r steps receipts _ hs ih =>
    rw [hs.length_reports]
    split <;> omega

end Run

section
variable {job : Job} {rest : List Job}

theorem fill_of_canStart (hfree : p.inFlight < slots limit) (hqueue : p.queue = job :: rest) :
    p.fill limit =
      fill limit { p with
        queue := rest
        inFlight := p.inFlight + 1
        running := p.running ++ [job]
        started := p.started ++ [job] } := by
  have hslots : slots limit - p.inFlight = slots limit - (p.inFlight + 1) + 1 := by
    omega
  simp [fill, hqueue, hslots, Nat.add_assoc, Nat.add_comm 1]

theorem fill_of_not_canStart (h : ¬ p.CanStart limit) :
    p.fill limit = { p with phase := if p.inFlight = 0 then .done else .waiting } := by
  have hqueue : p.queue = [] ∨ slots limit - p.inFlight = 0 := by
    by_cases hqueue : p.queue = []
    · exact .inl hqueue
    · have hfull : ¬ p.inFlight < slots limit := fun hfree => h ⟨hfree, hqueue⟩
      exact .inr (by omega)
  rcases hqueue with hqueue | hfull
  · simp [fill, hqueue]
  · simp [fill, hfull]

end

namespace Run

variable {steps receipts : Nat}

theorem filling (h : Run limit work p q steps receipts) (hphase : q.phase = .filling) {r : Pool}
    (hs : Step limit work q r) : Run limit work p r (steps + 1) receipts := by
  simpa [hphase] using h.step hs

theorem waiting (h : Run limit work p q steps receipts) (hphase : q.phase = .waiting) {r : Pool}
    (hs : Step limit work q r) : Run limit work p r (steps + 1) (receipts + 1) := by
  simpa [hphase] using h.step hs

theorem fill_of_not_canStart (h : Run limit work p q steps receipts) (hphase : q.phase = .filling)
    (hstart : ¬ q.CanStart limit) : ∃ steps, Run limit work p (q.fill limit) steps receipts := by
  rw [Pool.fill_of_not_canStart hstart]
  by_cases hidle : q.inFlight = 0
  · rw [if_pos hidle]
    exact ⟨_, h.filling hphase (.finish hphase hstart hidle)⟩
  · rw [if_neg hidle]
    exact ⟨_, h.filling hphase (.wait hphase hstart hidle)⟩

/-- Filling a pool starts its jobs one by one, as long as that is possible. -/
theorem fill (h : Run limit work p q steps receipts) (hphase : q.phase = .filling) :
    ∃ steps, Run limit work p (q.fill limit) steps receipts := by
  induction hqueue : q.queue generalizing q steps with
  | nil =>
    have hstart : ¬ q.CanStart limit := fun hstart => hstart.2 hqueue
    exact h.fill_of_not_canStart hphase hstart
  | cons job rest ih =>
    by_cases hfree : q.inFlight < slots limit
    · rw [fill_of_canStart hfree hqueue]
      exact ih (h.filling hphase (.start hphase hfree hqueue)) hphase rfl
    · have hstart : ¬ q.CanStart limit := fun hstart => hfree hstart.1
      exact h.fill_of_not_canStart hphase hstart

end Run

/-- Filling moves jobs from the queue to the slots. -/
theorem length_fill (limit : Nat) (p : Pool) :
    (p.fill limit).queue.length + (p.fill limit).running.length =
      p.queue.length + p.running.length := by
  simp only [fill, List.length_drop, List.length_append, List.length_take]
  omega

theorem inFlight_fill_ne_zero (h : p.queue.length + p.inFlight ≠ 0) :
    (p.fill limit).inFlight ≠ 0 := by
  have hpos := slots_pos limit
  simp only [fill, List.length_take]
  omega

theorem phase_fill (h : (p.fill limit).inFlight ≠ 0) : (p.fill limit).phase = .waiting :=
  if_neg h

/-- Whichever position is picked, some running worker reports. -/
theorem step_receive (limit : Nat) (work : Job → Ending) (position : Nat)
    (hphase : p.phase = .waiting) (hrunning : p.running ≠ []) :
    Step limit work p (p.receive work position) ∧ (p.receive work position).phase = .filling ∧
      (p.receive work position).queue = p.queue ∧
      (p.receive work position).running.length + 1 = p.running.length := by
  have hk : position % p.running.length < p.running.length :=
    Nat.mod_lt _ (List.length_pos_of_ne_nil hrunning)
  have hreceive : p.receive work position =
      { p with
        phase := .filling
        inFlight := p.inFlight - 1
        running := p.running.take (position % p.running.length) ++
          p.running.drop (position % p.running.length + 1)
        reports := p.reports ++ [(work p.running[position % p.running.length]).report
          p.running[position % p.running.length]] } := by
    rw [receive, List.getElem?_eq_getElem hk]
    simp only [List.eraseIdx_eq_take_drop_succ]
  rw [hreceive]
  refine ⟨.receive hphase ?_, rfl, rfl, ?_⟩
  · rw [List.cons_getElem_drop_succ, List.take_append_drop]
  · simp only [List.length_append, List.length_take, List.length_drop]
    omega

theorem Run.rounds (pick : Nat → Nat) {n steps receipts : Nat}
    (h : Run limit work (initial jobs) q steps receipts) (hphase : q.phase = .filling)
    (hn : q.queue.length + q.running.length = n) :
    (∃ steps, Run limit work (initial jobs) (q.rounds limit work pick n) steps (receipts + n)) ∧
      (q.rounds limit work pick n).phase = .done := by
  induction n generalizing q steps receipts with
  | zero =>
    refine ⟨h.fill hphase, ?_⟩
    have hqueue : q.queue = [] := List.eq_nil_of_length_eq_zero (by omega)
    have hidle : q.inFlight = 0 := h.sound.counted.trans (by omega)
    simp [Pool.rounds, Pool.fill, hqueue, hidle]
  | succ n ih =>
    obtain ⟨steps, hfill⟩ := h.fill hphase
    have hlength := length_fill limit q
    have hbusy : (q.fill limit).inFlight ≠ 0 :=
      inFlight_fill_ne_zero (by rw [h.sound.counted]; omega)
    have hwaiting := phase_fill hbusy
    have hrunning := mt hfill.sound.inFlight_eq_zero_iff.mpr hbusy
    obtain ⟨hstep, hfilling, hqueue, hone⟩ :=
      step_receive limit work (pick (q.fill limit).reports.length) hwaiting hrunning
    have hnext := ih (hfill.waiting hwaiting hstep) hfilling (by rw [hqueue]; omega)
    rw [show receipts + (n + 1) = receipts + 1 + n by omega]
    exact hnext

/-- The runner makes a complete run, whichever workers it picks. -/
theorem run_runPool (limit : Nat) (work : Job → Ending) (pick : Nat → Nat) (jobs : List Job) :
    (∃ steps, Run limit work (initial jobs) (runPool limit work pick jobs) steps jobs.length) ∧
      (runPool limit work pick jobs).phase = .done := by
  have hstart : Run limit work (initial jobs) (initial jobs) 0 0 := .start
  have hlength : (initial jobs).queue.length + (initial jobs).running.length = jobs.length := by
    simp [(schedule_perm jobs).length_eq]
  have hrun := hstart.rounds pick rfl rfl
  rw [hlength, Nat.zero_add] at hrun
  rwa [runPool, run, hlength]

/-- A pool counts its running workers, never runs more of them than it has slots and loses no
job. It starts the jobs
in the order of the schedule, waits only when no slot or no queued job is left, and ends
when every job has reported once. -/
theorem run_work_conserving {steps receipts : Nat}
    (h : Run limit work (initial jobs) p steps receipts) :
    p.inFlight = p.running.length ∧
    p.running.length ≤ max limit 1 ∧
    (p.queue ++ p.running ++ p.reports.map JobReport.job).Perm jobs ∧
    p.started ++ p.queue = schedule jobs ∧
    (schedule jobs).Pairwise (fun a b => b.difficulty.rank < a.difficulty.rank ∨
      a.difficulty = b.difficulty ∧ (compare a.path b.path).isLE = true) ∧
    (p.phase = .waiting → (p.queue = [] ∨ p.running.length = max limit 1) ∧ p.running ≠ [] ∧
      ∀ job ∈ p.running, ∃ q, Step limit work p q ∧
        q.reports = p.reports ++ [(work job).report job]) ∧
    (p.phase ≠ .done → ∃ q, Step limit work p q) ∧
    (p.phase = .done → p.queue = [] ∧ p.running = [] ∧ receipts = jobs.length) ∧
    receipts = p.reports.length ∧ receipts ≤ jobs.length ∧ steps ≤ 3 * jobs.length + 1 ∧
    (p.phase = .done ↔ steps = 3 * jobs.length + 1) := by
  have hsound := h.sound
  have hreceipts := h.receipts_eq
  have hsteps := h.steps_eq
  have hlength := hsound.perm.length_eq
  have hstart : (initial jobs).remaining = 3 * jobs.length + 1 := by
    simp [remaining, (schedule_perm jobs).length_eq]
  simp only [List.length_append, List.length_map] at hlength
  simp only [List.length_nil, Nat.zero_add] at hreceipts
  have hdone := hsound.done_iff
  refine ⟨hsound.counted, hsound.counted ▸ hsound.bounded, hsound.perm, hsound.started_eq, ?_, ?_,
    hsound.progress, ?_, hreceipts.symm, by omega, by omega, by rw [hdone]; omega⟩
  · exact (pairwise_schedule jobs).imp Job.startOrder_isLE_iff.mp
  · intro hwaiting
    refine ⟨hsound.counted ▸ hsound.full hwaiting,
      mt hsound.inFlight_eq_zero_iff.mpr (hsound.busy hwaiting), ?_⟩
    intro job hjob
    obtain ⟨before, after, hrunning⟩ := List.append_of_mem hjob
    exact ⟨_, .receive hwaiting hrunning, rfl⟩
  · intro hphase
    obtain ⟨hqueue, hidle⟩ := hsound.idle hphase
    have hrunning := hsound.inFlight_eq_zero_iff.mp hidle
    rw [hqueue, hrunning, List.length_nil] at hlength
    exact ⟨hqueue, hrunning, by omega⟩

/-- Three files of which no two are equally difficult. -/
def threeJobs : List Job :=
  [⟨⟨"b_2"⟩, .ofFloat 2.0⟩, ⟨⟨"c_9"⟩, .ofFloat 9.0⟩, ⟨⟨"a_4"⟩, .ofFloat 4.0⟩]

theorem schedule_threeJobs : schedule threeJobs =
    [⟨⟨"c_9"⟩, .ofFloat 9.0⟩, ⟨⟨"a_4"⟩, .ofFloat 4.0⟩, ⟨⟨"b_2"⟩, .ofFloat 2.0⟩] := by
  have distinct : threeJobs.Pairwise fun a b => a.startOrder b ≠ .eq := by decide +kernel
  have hperm : threeJobs.Perm
      [⟨⟨"c_9"⟩, .ofFloat 9.0⟩, ⟨⟨"a_4"⟩, .ofFloat 4.0⟩, ⟨⟨"b_2"⟩, .ofFloat 2.0⟩] := by
    decide +kernel
  refine (Sorting.sort_eq_of_perm distinct hperm).trans (List.mergeSort_of_pairwise ?_)
  decide +kernel

/-- Work of which one job prints, one fails and one crashes. -/
def mixedWork (job : Job) : Ending :=
  if job.path.text = "c_9" then .printed "9 OK c_9\n"
  else if job.path.text = "a_4" then .failed (.worker "a_4" "exit status: 1")
  else .crashed

theorem run_work_conserving_threeJobs :
    ∃ p, Run 2 mixedWork (initial threeJobs) p 6 1 ∧ p.phase = .waiting ∧ p.inFlight = 2 ∧
      p.reports = [⟨⟨⟨"c_9"⟩, .ofFloat 9.0⟩, .completed, "9 OK c_9\n"⟩] ∧
      (p.queue = [] ∨ p.running.length = 2) ∧
      (p.queue ++ p.running ++ p.reports.map JobReport.job).Perm threeJobs ∧
      p.started ++ p.queue = schedule threeJobs ∧ ∃ q, Step 2 mixedWork p q := by
  have hstart : Run 2 mixedWork (initial threeJobs)
      { queue := [⟨⟨"c_9"⟩, .ofFloat 9.0⟩, ⟨⟨"a_4"⟩, .ofFloat 4.0⟩,
          ⟨⟨"b_2"⟩, .ofFloat 2.0⟩] } 0 0 := by
    rw [initial, schedule_threeJobs]
    exact .start
  have hfirst := hstart.filling rfl (.start rfl (by decide) rfl)
  have hsecond := hfirst.filling rfl (.start rfl (by decide) rfl)
  have hfull := hsecond.filling rfl (.wait rfl (by simp [CanStart, slots]) (by simp))
  have hreport := hfull.waiting rfl (@Step.receive _ _ _ _ [] _ rfl rfl)
  have hthird := hreport.filling rfl (.start rfl (by decide) rfl)
  have hrun := hthird.filling rfl (.wait rfl (by simp [CanStart]) (by simp))
  obtain ⟨hcounted, -, hperm, hstarted, -, hwaiting, hprogress, -⟩ := run_work_conserving hrun
  exact ⟨_, hrun, rfl, hcounted, rfl, (hwaiting rfl).1, hperm, hstarted, hprogress nofun⟩

end Pool
end Annealing.Batch
