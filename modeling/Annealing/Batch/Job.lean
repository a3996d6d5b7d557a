import Annealing.Decimal.Positional
import Annealing.Files.Difficulty
import Annealing.Text.Blank

/-!
# Jobs and reports

A job is an instance file with a difficulty. Jobs are started with the most
difficult first, and reports are listed with the least difficult first; files
of the same difficulty come in the order of their paths both times.
-/
namespace Annealing.Batch

/-- An instance file to be solved. -/
structure Job where
  path : Path
  difficulty : Binary64
  deriving DecidableEq, Repr

namespace Job

/-- The job of a path, with the difficulty that its name tells, or zero. -/
def ofPath (path : Path) : Job := ⟨path, .ofFloat (path.difficulty?.getD 0.0)⟩

/-- The name of the file, or the whole path if it does not end in a name. -/
def fileName (j : Job) : String := j.path.fileName?.getD j.path.text

/-- The order in which jobs are started. -/
def startOrder (a b : Job) : Ordering :=
  (compare b.difficulty a.difficulty).then (compare a.path b.path)

/-- The order in which reports are listed. -/
def listOrder (a b : Job) : Ordering :=
  (compare a.difficulty b.difficulty).then (compare a.path b.path)

end Job

/-- The jobs in the order in which they are started. -/
def schedule (jobs : List Job) : List Job := jobs.mergeSort fun a b => (a.startOrder b).isLE

/-- How a worker ended. -/
inductive Status where
  | completed
  | failed (reason : String)
  deriving DecidableEq, Repr

/-- What the worker of a job handed back. -/
structure JobReport where
  job : Job
  status : Status
  /-- What the worker printed. -/
  output : String
  deriving DecidableEq, Repr

namespace JobReport

def isFailure (r : JobReport) : Bool :=
  match r.status with
  | .completed => false
  | .failed _ => true

/-- The text of a report: the output without blanks at its ends, or the
failure. -/
def format (r : JobReport) : String :=
  match r.status with
  | .completed => String.ofList (Text.trim r.output.toList)
  | .failed reason =>
    r.job.difficulty.text ++ " ERROR " ++ r.job.fileName ++ ": " ++ reason

end JobReport

/-- The reports in the order in which they are listed. -/
def sortReports (reports : List JobReport) : List JobReport :=
  reports.mergeSort fun a b => (a.job.listOrder b.job).isLE

/-- The texts of some reports, without empty ones. -/
def reportLines (reports : List JobReport) : List String :=
  (reports.map JobReport.format).filter (!·.isEmpty)

/-- The number of failures among some reports. -/
def failures (reports : List JobReport) : Nat := reports.countP JobReport.isFailure

end Annealing.Batch
