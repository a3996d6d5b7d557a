import Annealing.Proofs.Batch.Runs

/-!
# Outcomes of a batch

When a run is complete, its reports are those of all jobs, in the order in
which the workers happened to end. Listing them puts every one in the place of
its job, and so the jobs and their work alone decide what is listed, if no two
jobs have the same difficulty and path.
-/
namespace Annealing.Batch

/-- A complete run of some jobs has ended in a pool. -/
def Completes (limit : Nat) (work : Job → Ending) (jobs : List Job) (p : Pool) : Prop :=
  (∃ steps receipts, Pool.Run limit work (Pool.initial jobs) p steps receipts) ∧ p.phase = .done

/-- What the report of a job says about an ending. -/
def JobReport.Tells (r : JobReport) : Ending → Prop
  | .printed text => r.status = .completed ∧ r.output = text
  | .failed failure => r.status = .failed failure.message ∧ r.output = ""
  | .crashed => r.status = .failed "worker panicked" ∧ r.output = ""

def Ending.isPrinted : Ending → Bool
  | .printed _ => true
  | _ => false

theorem Ending.tells_report (e : Ending) (job : Job) : (e.report job).Tells e := by
  cases e <;> exact ⟨rfl, rfl⟩

theorem Ending.isFailure_report (e : Ending) (job : Job) :
    (e.report job).isFailure = !e.isPrinted := by
  cases e <;> rfl

/-- The jobs in the order in which their reports are listed. -/
def listing (jobs : List Job) : List Job := jobs.mergeSort fun a b => (a.listOrder b).isLE

/-- The reports of some jobs, in the order of the jobs. -/
def reportAll (work : Job → Ending) (jobs : List Job) : List JobReport :=
  jobs.map fun job => (work job).report job

section
variable {limit limit' : Nat} {work work' : Job → Ending} {jobs jobs' : List Job} {p p' : Pool}

theorem map_job_reportAll (work : Job → Ending) (jobs : List Job) :
    (reportAll work jobs).map JobReport.job = jobs := by
  simp [reportAll, Function.comp_def]

theorem failures_reportAll (work : Job → Ending) (jobs : List Job) :
    failures (reportAll work jobs) = jobs.countP fun job => !(work job).isPrinted := by
  simp [failures, reportAll, List.countP_map, Function.comp_def, Ending.isFailure_report]

theorem sortReports_reportAll (work : Job → Ending) (jobs : List Job) :
    sortReports (reportAll work jobs) = reportAll work (listing jobs) := by
  refine (List.map_mergeSort ?_).symm
  intro a _ b _
  rw [Ending.job_report, Ending.job_report]

/-- A complete run has reported every job once, in some order. -/
theorem Completes.reports_eq (h : Completes limit work jobs p) :
    ∃ order : List Job, order.Perm jobs ∧ p.reports = reportAll work order := by
  obtain ⟨⟨steps, receipts, hrun⟩, hdone⟩ := h
  have hsound := hrun.sound
  obtain ⟨hqueue, hidle⟩ := hsound.idle hdone
  have hrunning := hsound.inFlight_eq_zero_iff.mp hidle
  refine ⟨p.reports.map JobReport.job, ?_, ?_⟩
  · have hperm := hsound.perm
    rwa [hqueue, hrunning, List.append_nil, List.nil_append] at hperm
  · have hreport : ∀ r ∈ p.reports, (work r.job).report r.job = r :=
      fun r hr => (hsound.reported r hr).symm
    rw [reportAll, List.map_map]
    exact (List.map_id' _).symm.trans (List.map_congr_left hreport).symm

theorem Completes.sortReports_eq (h : Completes limit work jobs p)
    (distinct : jobs.Pairwise fun a b => a.listOrder b ≠ .eq) :
    sortReports p.reports = reportAll work (listing jobs) := by
  obtain ⟨order, hperm, hreports⟩ := h.reports_eq
  have horder : listing jobs = listing order := Sorting.sort_eq_of_perm distinct hperm.symm
  rw [hreports, sortReports_reportAll, horder]

theorem completes_runPool (limit : Nat) (work : Job → Ending) (pick : Nat → Nat)
    (jobs : List Job) : Completes limit work jobs (runPool limit work pick jobs) := by
  obtain ⟨⟨steps, hrun⟩, hdone⟩ := Pool.run_runPool limit work pick jobs
  exact ⟨⟨steps, jobs.length, hrun⟩, hdone⟩

/-- Changing the work of one job changes its report alone. -/
theorem reportAll_eq_map {job : Job} (h : ∀ other, other ≠ job → work' other = work other)
    (jobs : List Job) : reportAll work' jobs =
      (reportAll work jobs).map fun r => if r.job = job then (work' job).report job else r := by
  unfold reportAll
  rw [List.map_map]
  apply List.map_congr_left
  intro other _
  by_cases hjob : other = job
  · simp [hjob]
  · simp [hjob, h other hjob]

end

/-- What a batch lists depends on the jobs and their work only. -/
theorem sortReports_schedulingIndependent {work : Job → Ending} {jobs : List Job}
    (distinct : jobs.Pairwise fun a b => a.listOrder b ≠ .eq) {limit : Nat} {p : Pool}
    (h : Completes limit work jobs p) :
    ((sortReports p.reports).map JobReport.job).Perm jobs ∧
    (∀ r ∈ sortReports p.reports, r.Tells (work r.job)) ∧
    (sortReports p.reports).Pairwise (fun a b => a.job.difficulty.rank < b.job.difficulty.rank ∨
      a.job.difficulty = b.job.difficulty ∧ compare a.job.path b.job.path = .lt) ∧
    failures (sortReports p.reports) = jobs.countP (fun job => !(work job).isPrinted) ∧
    (∀ limit' jobs' p', jobs'.Perm jobs → Completes limit' work jobs' p' →
      sortReports p'.reports = sortReports p.reports) ∧
    (∀ limit' work' job p', (∀ other, other ≠ job → work' other = work other) →
      Completes limit' work' jobs p' →
      sortReports p'.reports = (sortReports p.reports).map fun r =>
        if r.job = job then (work' job).report job else r) ∧
    (∀ limit' pick, runJobs limit' work pick jobs = sortReports p.reports) := by
  have heq := h.sortReports_eq distinct
  rw [heq, map_job_reportAll, failures_reportAll]
  refine ⟨List.mergeSort_perm _ _, ?_, ?_, (List.mergeSort_perm _ _).countP_eq _, ?_, ?_, ?_⟩
  · intro r hr
    obtain ⟨job, -, rfl⟩ := List.mem_map.mp hr
    rw [Ending.job_report]
    exact Ending.tells_report _ _
  · have hlt : (listing jobs).Pairwise fun a b => a.listOrder b = .lt :=
      Sorting.pairwise_lt distinct
    simpa [reportAll, List.pairwise_map, ← Job.listOrder_eq_lt_iff] using hlt
  · intro limit' jobs' p' hjobs h'
    have horder : listing jobs = listing jobs' := Sorting.sort_eq_of_perm distinct hjobs.symm
    rw [h'.sortReports_eq (Sorting.distinct_perm distinct hjobs.symm), horder]
  · intro limit' work' job p' hwork h'
    rw [h'.sortReports_eq distinct]
    exact reportAll_eq_map hwork _
  · intro limit' pick
    exact (completes_runPool limit' work pick jobs).sortReports_eq distinct

theorem sortReports_schedulingIndependent_threeJobs :
    Pool.threeJobs.Pairwise (fun a b => a.listOrder b ≠ .eq) ∧
      ∃ p, Completes 2 Pool.mixedWork Pool.threeJobs p ∧
        failures (sortReports p.reports) = 2 ∧
        (∀ limit' jobs' p', jobs'.Perm Pool.threeJobs →
          Completes limit' Pool.mixedWork jobs' p' →
          sortReports p'.reports = sortReports p.reports) ∧
        ∀ limit' pick, runJobs limit' Pool.mixedWork pick Pool.threeJobs =
          sortReports p.reports := by
  have distinct : Pool.threeJobs.Pairwise fun a b => a.listOrder b ≠ .eq := by decide +kernel
  have hrun := completes_runPool 2 Pool.mixedWork (fun _ => 1) Pool.threeJobs
  obtain ⟨-, -, -, hfailures, hsame, -, hrunner⟩ :=
    sortReports_schedulingIndependent distinct hrun
  exact ⟨distinct, _, hrun, hfailures.trans (by decide), hsame, hrunner⟩

end Annealing.Batch
