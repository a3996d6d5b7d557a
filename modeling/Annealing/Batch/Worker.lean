import Annealing.Batch.Pool
import Annealing.Batch.Program
import Annealing.Batch.Settings

/-!
# Workers

A worker solves one file by running a program on a command line that says
what to do with the file.
-/
namespace Annealing.Batch

/-- The words that tell a program to solve the file of a job. -/
def Settings.words (s : Settings) (tree : Tree) (file : Path) : List String :=
  let ending :=
    if s.measuring then ["--measure"]
    else match s.expectedPath? tree file with
      | some expected => ["--test", expected.text]
      | none => []
  ["solve", "--filepath", file.text, "--problem", s.choice.word] ++ ending

/-- The arguments on which a program solves the file of a job. -/
def Settings.arguments (s : Settings) (tree : Tree) (file : Path) : List String :=
  (s.words tree file).map passedWord

/-- Solves a job by running a program. -/
def execute (s : Settings) (tree : Tree) (ps : Programs) (job : Job) : Except Failure String :=
  match ps.run tree s.program? (s.words tree job.path) with
  | .error e => .error (.io e.message)
  | .ok exit =>
    if exit.code = 0 then .ok exit.output
    else .error (.worker job.fileName ("exit status: " ++ exit.code.repr))

/-- The ending of work that may fail but does not crash. -/
def Ending.ofResult : Except Failure String → Ending
  | .ok text => .printed text
  | .error failure => .failed failure

/-- Solves the files of a batch with given workers. -/
def runWith (s : Settings) (tree : Tree) (work : Job → Ending) (pick : Nat → Nat) :
    Except Failure Pool :=
  match s.defect? tree with
  | some defect => .error (.configuration defect.message)
  | none =>
    match collectJobs tree s.directory s.maxDifficulty? with
    | .error e => .error (.io e.message)
    | .ok jobs => .ok (runPool s.jobs work pick jobs)

/-- The listed reports of a batch whose workers run programs. -/
def run (s : Settings) (tree : Tree) (ps : Programs) : Except Failure (List JobReport) :=
  (runWith s tree (fun job => .ofResult (execute s tree ps job)) fun _ => 0).map
    fun pool => sortReports pool.reports

end Annealing.Batch
