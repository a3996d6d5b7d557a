import Annealing.Batch.Job
import Annealing.Failure
import Annealing.Files.Tree
import Annealing.Solving.Kind

/-!
# Settings of a batch

A batch solves the instance files of a directory, leaving out the most
difficult ones if a bound is set. Results are checked against a directory of
expected ones if it is given and times are not asked for.
-/
namespace Annealing.Batch

/-- What a batch is to do. -/
structure Settings where
  directory : Path
  /-- How many workers may run at once. -/
  jobs : Nat
  maxDifficulty? : Option Float := none
  checkDirectory? : Option Path := none
  /-- Report times instead of results. -/
  measuring : Bool := false
  choice : Solving.Choice := .auto
  /-- The program that solves a file; by default the running one. -/
  program? : Option Path := none

namespace Settings

/-- What makes the settings of a batch unusable. -/
inductive Defect where
  | noJobs
  | noDirectory (directory : Path)
  | noCheckDirectory (directory : Path)
  | boundNotANumber
  deriving DecidableEq, Repr

def Defect.message : Defect → String
  | .noJobs => "jobs must be positive"
  | .noDirectory directory => "instance directory " ++ directory.text ++ " does not exist"
  | .noCheckDirectory directory =>
    "expected-results directory " ++ directory.text ++ " does not exist"
  | .boundNotANumber => "max difficulty must be a number"

/-- The first defect of the settings, if there is one. -/
def defect? (s : Settings) (tree : Tree) : Option Defect :=
  if s.jobs = 0 then some .noJobs
  else if !tree.isDirectory s.directory then some (.noDirectory s.directory)
  else
    match s.checkDirectory?.filter (!tree.isDirectory ·) with
    | some directory => some (.noCheckDirectory directory)
    | none =>
      match s.maxDifficulty?.filter Float.isNaN with
      | some _ => some .boundNotANumber
      | none => none

/-- The name of the file with the expected results for an instance file. -/
def expectedName (name : String) : String :=
  match Text.stripEnding? ".inst.dat".toList name.toList with
  | some stem => String.ofList stem ++ ".sol.dat"
  | none => name

/-- The file with the expected results for an instance file, if results are
checked. If the file of the same name does not exist, one named for the
difficulty is taken if that exists. -/
def expectedPath? (s : Settings) (tree : Tree) (file : Path) : Option Path :=
  match s.checkDirectory?, file.fileName? with
  | some directory, some name =>
    let sameName := directory.join (expectedName name)
    if tree.exists? sameName then some sameName
    else
      let byDifficulty := file.difficulty?.map fun difficulty =>
        directory.join ("sat." ++ decimalText difficulty ++ ".sol.dat")
      some ((byDifficulty.filter tree.exists?).getD sameName)
  | _, _ => none

end Settings

/-- The files of a directory as jobs, without those above a bound. -/
def collectJobs (tree : Tree) (directory : Path) (bound? : Option Float) :
    Except FileError (List Job) :=
  (tree.list directory).map fun names =>
    let jobs := ((names.map directory.join).filter tree.isFile).map Job.ofPath
    match bound? with
    | none => jobs
    | some bound => jobs.filter fun job => !(job.difficulty.toFloat > bound)

end Annealing.Batch
