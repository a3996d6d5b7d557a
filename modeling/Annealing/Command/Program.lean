import Annealing.Batch.Worker
import Annealing.Command.Request

/-!
# The program

The program answers a command line with an exit code, a text and messages.
What it takes from the outside is its environment, so a run is a function of
environment and command line. Results go into the text; an exit code of one is
a failure that a message tells about, two is a command line that could not be
understood, and 101 is a crash, which ends the program without a message in
its log.
-/
namespace Annealing.Command

/-- What the program takes from the outside. -/
structure Environment where
  tree : Tree
  /-- Seeds and clock readings for solving a file. -/
  surroundings : Path → Solving.Surroundings := fun _ => {}
  processors : Nat := 1
  /-- Programs that a worker may run besides this one, by the names on the way to
  their files. -/
  programs : List (List String × Batch.Program) := []
  /-- Where a program is looked for by its mere name. -/
  directories : List Path := []

/-- What a run of the program leaves behind. -/
structure Answer where
  code : Nat
  output : String := ""
  log : List Message := []
  deriving DecidableEq, Repr

/-- The answer of a run that failed after some messages. -/
def Answer.failed (log : List Message) (failure : Failure) : Answer :=
  if failure.isCrash then { code := 101, log }
  else { code := 1, log := log ++ [⟨.error, "Execution failed, error: " ++ failure.message⟩] }

/-- The messages shown to the user. -/
def shown (verbose : Bool) (log : List Message) : List Message :=
  log.filter (Message.shown verbose)

/-- Texts as lines. -/
def asLines (texts : List String) : String := String.join (texts.map (· ++ "\n"))

/-- Solves one file. -/
def runSolve (e : Environment) (r : SolveRequest) : Answer :=
  match Solving.readText e.tree r.file with
  | .error failure => .failed [] failure
  | .ok text =>
    let solved := Solving.solve r.options (e.surroundings r.file) text
    let log := Solving.solveLog r.options text solved
    match (solved.bind (·.report (Solving.fileSize r.file))).bind
        (Solving.render e.tree r.options r.file) with
    | .error failure => .failed log failure
    | .ok rendered =>
      { code := 0, output := asLines (if rendered.isEmpty then [] else [rendered]), log }

/-- This program as a worker of a batch, which only has files to solve. -/
def worker (e : Environment) : Batch.Program := fun arguments =>
  match parseRequest false arguments with
  | .ok (.solve _ request) =>
    let answer := runSolve e request
    ⟨answer.code, answer.output⟩
  | _ => ⟨2, ""⟩

/-- The programs of an environment. -/
def Environment.allPrograms (e : Environment) : Batch.Programs :=
  ⟨worker e, e.programs, e.directories⟩

/-- The settings of a batch request. -/
def BatchRequest.settings (r : BatchRequest) (e : Environment) : Batch.Settings where
  directory := r.directory
  jobs := r.jobs?.getD e.processors
  maxDifficulty? := r.maxDifficulty?
  checkDirectory? := r.checkDirectory?
  measuring := r.measuring
  choice := r.choice

/-- Solves the files of a directory. -/
def runBatch (e : Environment) (r : BatchRequest) : Answer :=
  let settings := r.settings e
  let ignored :=
    if r.measuring ∧ r.checkDirectory?.isSome then
      [⟨.warn, "timing requested, correctness testing is ignored"⟩]
    else []
  let work job := Batch.Ending.ofResult (Batch.execute settings e.tree e.allPrograms job)
  match Batch.runWith settings e.tree work fun _ => 0 with
  | .error failure => .failed ignored failure
  | .ok pool =>
    let failed := pool.reports.filterMap fun report =>
      match report.status with
      | .completed => none
      | .failed reason => some ⟨.warn, reason⟩
    let reports := Batch.sortReports pool.reports
    let total := ⟨.info, (Batch.failures reports).repr ++ " of " ++ reports.length.repr ++
      " workers failed"⟩
    { code := 0
      output := asLines (Batch.reportLines reports)
      log := ignored ++ failed ++ [total] }

/-- The text that names the program. -/
def versionText : String := "annealer 0.1.0\n"

/-- The text that explains the command line. -/
def helpText : String := asLines
  ["Usage: annealer [--verbose] <solve|batch> [options]",
    "",
    "solve  --filepath FILE [--problem auto|knapsack|sat] [--measure] [--test FILE] [--seed N]",
    "batch  --instances DIR [--jobs N] [--difficulty X] [--test DIR] [--measure]",
    "       [--problem auto|knapsack|sat]"]

/-- Runs the program. The messages of the answer are those shown. -/
def runProgram (e : Environment) (arguments : List String) : Answer :=
  match parseRequest false arguments with
  | .error _ => { code := 2 }
  | .ok .help => { code := 0, output := helpText }
  | .ok .version => { code := 0, output := versionText }
  | .ok (.solve verbose request) =>
    let answer := runSolve e request
    { answer with log := shown verbose answer.log }
  | .ok (.batch verbose request) =>
    let answer := runBatch e request
    { answer with log := shown verbose answer.log }

end Annealing.Command
