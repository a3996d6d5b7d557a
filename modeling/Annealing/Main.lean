import Annealing.Command.Program

/-!
# Command line entry

Takes from the system what a command line needs, runs the program on it, and
prints its answer. The files in question are read into a tree; seeds come from
the random source of the system. If times are asked for, every search is made
once between two clock readings before the program runs.
-/
namespace Annealing.Command

/-- The node at a path, if there is one that can be read. -/
def readNode? (path : String) : IO (Option Node) := do
  let here ← IO.currentDir
  let place := here / path
  if ← place.isDir then pure (some .directory)
  else if ← place.pathExists then
    try
      pure (some (.file (.ofBytes (← IO.FS.readBinFile place))))
    catch _ => pure none
  else pure none

/-- The names in a directory; of anything else there are none. -/
def readNames (path : String) : IO (List String) := do
  let here ← IO.currentDir
  try
    pure ((← (here / path).readDir).toList.map (·.fileName))
  catch _ => pure []

/-- The names on the way from the root to a path. -/
def absoluteNames (working : List String) (path : Path) : List String :=
  path.components.foldl
    (fun names component =>
      match component with
      | .root => []
      | .here => names
      | .up => names.dropLast
      | .name text => names ++ [text])
    working

/-- A path and all paths on the way to it. -/
def pathsOnTheWay (path : Path) : List Path :=
  (List.range path.pieces.length).map fun k =>
    ⟨String.intercalate "/" (path.pieces.take (k + 1))⟩

/-- The nodes at some paths and on the way to them. -/
def readNodes (working : List String) (paths : List Path) :
    IO (List (List String × Node)) := do
  let nodes ← (paths.flatMap pathsOnTheWay).eraseDups.mapM fun path => do
    pure ((← readNode? path.text).map fun node => (absoluteNames working path, node))
  pure (nodes.filterMap id)

/-- The paths in a directory, and the directory itself. -/
def directoryPaths (directory : Path) : IO (List Path) := do
  pure (directory :: (← readNames directory.text).map directory.join)

/-- The paths that a request refers to. -/
def requestPaths : Request → IO (List Path)
  | .solve _ request => pure (request.file :: request.options.check?.toList)
  | .batch _ request => do
    let instances ← directoryPaths request.directory
    let expected ← request.checkDirectory?.toList.mapM directoryPaths
    pure (instances ++ expected.flatten)
  | _ => pure []

/-- The clock readings before and after every search of a file. -/
def timeSearches (e : Environment) (o : Solving.Options) (file : Path) : IO (Array Nat) := do
  let searches :=
    (Solving.readText e.tree file).bind fun text =>
      Solving.searches o (e.surroundings file) text
  let mut readings := #[]
  for search in searches.toOption.getD [] do
    readings := readings.push (← IO.monoNanosNow)
    let _ ← IO.lazyPure fun _ => search.get
    readings := readings.push (← IO.monoNanosNow)
  pure readings

/-- The files that a request wants to have timed, and how they are solved. -/
def timedFiles (e : Environment) : Request → List (Path × Solving.Options)
  | .solve _ request =>
    if request.options.measuring then [(request.file, request.options)] else []
  | .batch _ request =>
    if request.measuring then
      let jobs := Batch.collectJobs e.tree request.directory request.maxDifficulty?
      (jobs.toOption.getD []).map fun job => (job.path, { choice := request.choice })
    else []
  | _ => []

/-- The environment for a request. -/
def environment (request : Request) : IO Environment := do
  let working := Tree.plainNames ⟨(← IO.currentDir).toString⟩
  let tree : Tree := ⟨working, ← readNodes working (← requestPaths request)⟩
  let base := (← IO.getRandomBytes 8).toList.foldl (fun n b => 256 * n + b.toUInt64) 0
  let entropy (file : Path) (k : Nat) : UInt64 :=
    let tape := Tape.ofSeed (base + hash file.text)
    (tape.word (2 * k)).toUInt64 ||| ((tape.word (2 * k + 1)).toUInt64 <<< 32)
  let untimed : Environment := { tree, surroundings := fun file => { entropy := entropy file } }
  let timed ← (timedFiles untimed request).mapM fun (file, options) => do
    pure (file, ← timeSearches untimed options file)
  let clock (file : Path) (k : Nat) : Nat :=
    ((timed.find? (·.1 = file)).bind (·.2[k]?)).getD 0
  pure
    { untimed with
      surroundings := fun file => { entropy := entropy file, clock := clock file } }

/-- Answers a command line with an exit code. -/
def answerCommandLine (arguments : List String) : IO UInt32 := do
  let request := (parseRequest false arguments).toOption.getD .version
  let answer := runProgram (← environment request) arguments
  for message in answer.log do
    IO.eprintln message.format
  IO.print answer.output
  pure (.ofNat answer.code)

end Annealing.Command

def main (arguments : List String) : IO UInt32 :=
  Annealing.Command.answerCommandLine arguments
