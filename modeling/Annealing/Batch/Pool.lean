import Annealing.Batch.Job
import Annealing.Failure

/-!
# The worker pool

A pool starts its queued jobs in order while a slot is free, and then waits
until any one of the running workers reports. It decides by a counter of the
workers in flight alone: `Step` says what a pool may do.
`run` makes one run of it, where an arbitrary function picks the worker that
reports next; a run ends when nothing is queued or running.
-/
namespace Annealing.Batch

/-- How the work of a job ends: it prints a text, fails, or crashes. -/
inductive Ending where
  | printed (text : String)
  | failed (failure : Failure)
  | crashed
  deriving DecidableEq, Repr

/-- The report of a worker whose work has ended. -/
def Ending.report (job : Job) : Ending → JobReport
  | .printed text => ⟨job, .completed, text⟩
  | .failed failure => ⟨job, .failed failure.message, ""⟩
  | .crashed => ⟨job, .failed "worker panicked", ""⟩

/-- What a pool is doing. -/
inductive Phase where
  /-- Starting queued jobs. -/
  | filling
  /-- Waiting for a worker to report. -/
  | waiting
  /-- Nothing is left to do. -/
  | done
  deriving DecidableEq, Repr

/-- The state of a pool. -/
structure Pool where
  phase : Phase := .filling
  queue : List Job
  /-- The counter of workers that were started and have not reported. -/
  inFlight : Nat := 0
  /-- The jobs whose workers are running, in the order of their starts. -/
  running : List Job := []
  /-- The reports received, in the order of their arrival. -/
  reports : List JobReport := []
  /-- All jobs ever started, in order. -/
  started : List Job := []
  deriving DecidableEq, Repr

namespace Pool

/-- The number of slots for a limit; a pool always has one. -/
def slots (limit : Nat) : Nat := max limit 1

/-- Whether a filling pool can start a job. -/
def CanStart (limit : Nat) (p : Pool) : Prop := p.inFlight < slots limit ∧ p.queue ≠ []

/-- What a pool may do next. The worker that reports is any one of those
running. -/
inductive Step (limit : Nat) (work : Job → Ending) : Pool → Pool → Prop
  | start {p : Pool} {job : Job} {rest : List Job} :
      p.phase = .filling → p.inFlight < slots limit → p.queue = job :: rest →
      Step limit work p
        { p with
          queue := rest
          inFlight := p.inFlight + 1
          running := p.running ++ [job]
          started := p.started ++ [job] }
  | wait {p : Pool} :
      p.phase = .filling → ¬ p.CanStart limit → p.inFlight ≠ 0 →
      Step limit work p { p with phase := .waiting }
  | receive {p : Pool} {job : Job} {before after : List Job} :
      p.phase = .waiting → p.running = before ++ job :: after →
      Step limit work p
        { p with
          phase := .filling
          inFlight := p.inFlight - 1
          running := before ++ after
          reports := p.reports ++ [(work job).report job] }
  | finish {p : Pool} :
      p.phase = .filling → ¬ p.CanStart limit → p.inFlight = 0 →
      Step limit work p { p with phase := .done }

/-- Starts queued jobs while a slot is free, and then waits unless nothing is
in flight. -/
def fill (limit : Nat) (p : Pool) : Pool :=
  let free := slots limit - p.inFlight
  let inFlight := p.inFlight + (p.queue.take free).length
  { p with
    phase := if inFlight = 0 then .done else .waiting
    queue := p.queue.drop free
    inFlight
    running := p.running ++ p.queue.take free
    started := p.started ++ p.queue.take free }

/-- Receives the report of the running worker at a position, counted around. -/
def receive (work : Job → Ending) (position : Nat) (p : Pool) : Pool :=
  let k := position % p.running.length
  match p.running[k]? with
  | none => p
  | some job =>
    { p with
      phase := .filling
      inFlight := p.inFlight - 1
      running := p.running.eraseIdx k
      reports := p.reports ++ [(work job).report job] }

/-- Receives a number of reports, with the slots filled before each and after
the last. -/
def rounds (limit : Nat) (work : Job → Ending) (pick : Nat → Nat) : Nat → Pool → Pool
  | 0, p => p.fill limit
  | n + 1, p =>
    let p := p.fill limit
    rounds limit work pick n (p.receive work (pick p.reports.length))

/-- Runs a pool until nothing is queued or running: every job reports once. -/
def run (limit : Nat) (work : Job → Ending) (pick : Nat → Nat) (p : Pool) : Pool :=
  p.rounds limit work pick (p.queue.length + p.running.length)

end Pool

/-- Runs jobs in a pool, picking the reporting worker by a function of the
number of reports so far. -/
def runPool (limit : Nat) (work : Job → Ending) (pick : Nat → Nat) (jobs : List Job) : Pool :=
  Pool.run limit work pick { queue := schedule jobs }

/-- The listed reports of some jobs. -/
def runJobs (limit : Nat) (work : Job → Ending) (pick : Nat → Nat) (jobs : List Job) :
    List JobReport :=
  sortReports (runPool limit work pick jobs).reports

end Annealing.Batch
