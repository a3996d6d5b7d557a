import Annealing.Failure
import Annealing.Files.Difficulty
import Annealing.Files.Tree
import Annealing.Knapsack.Format
import Annealing.Knapsack.Search
import Annealing.Satisfiability.Format
import Annealing.Satisfiability.Search
import Annealing.Solving.Kind
import Annealing.Solving.Verdict
import Annealing.Timing.Summary

/-!
# Solving a text

Every instance of a text is searched with settings for its size. The search of
instance `k` has a tape of its own: with a base seed, the tape of that seed
plus `k`; without one, that of the `k`-th word of an entropy source. If
measuring is asked for, every search is one measurement of a stopwatch.
-/
namespace Annealing.Solving

/-- How to solve a text. -/
structure Options where
  choice : Choice := .auto
  /-- Report the lengths of the searches instead of the solutions. -/
  measuring : Bool := false
  /-- A file with expected results. -/
  check? : Option Path := none
  seed? : Option UInt64 := none
  deriving DecidableEq, Repr

/-- What a run takes from its surroundings: words for seeds and clock
readings. -/
structure Surroundings where
  entropy : Nat → UInt64 := fun _ => 0
  clock : Nat → Nat := fun _ => 0

/-- The seed of the `k`-th instance. -/
def Options.seed (o : Options) (s : Surroundings) (k : Nat) : UInt64 :=
  match o.seed? with
  | some base => base + .ofNat k
  | none => s.entropy k

/-- The search of one instance: its result, whether it is feasible, and what
there is to tell about the search. -/
structure Entry where
  solution : String
  feasible : Bool
  log : List Message
  deriving DecidableEq, Repr

/-- What there is to tell about a search. -/
def searchLog {σ : Type} (p : Problem σ) (s : Settings) (t : Tape) (o : Outcome σ) :
    List Message :=
  let start := ⟨.debug, "annealing " ++ p.size.repr ++ " elements from T0 = " ++
    decimalText s.initial ++ " (" ++ s.proposals.repr ++ " iterations per level)"⟩
  let waiting :=
    if p.feasible? (p.start t).1 = some false then
      [⟨.debug, "initial state is infeasible, waiting for a feasible neighbor"⟩]
    else []
  let frozen := ⟨.debug, "annealing frozen after " ++ o.levels.repr ++ " steps / " ++
    o.proposals.repr ++ " iterations: accepted " ++ o.accepted.repr ++ ", improving " ++
    o.improving.repr ++ ", best " ++ decimalText o.bestObjective⟩
  start :: waiting ++ [frozen]

/-- Searches a problem with settings for its size. -/
def searchSized {σ : Type} (p : Problem σ) (seed : UInt64) :
    Except Failure (Outcome σ × List Message) :=
  let settings := { Settings.forSize p.size with seed? := some seed }
  let tape := settings.tape 0
  match (search p settings tape).1 with
  | .ok outcome => .ok (outcome, searchLog p settings tape outcome)
  | .error stop => .error (.ofStop stop)

/-- Searches a knapsack instance. -/
def knapsackEntry (i : Knapsack.Instance) (seed : UInt64) : Except Failure Entry :=
  (searchSized i.problem seed).map fun (outcome, log) =>
    { solution := Knapsack.formatResult i outcome.best, feasible := outcome.feasible, log }

/-- Searches a satisfiability instance. -/
def satisfiabilityEntry (i : Satisfiability.Instance) (seed : UInt64) : Except Failure Entry :=
  (searchSized i.problem seed).map fun (outcome, log) =>
    let ended := if outcome.feasible then [] else
      [⟨.debug, "instance " ++ i.id.toNat.repr ++ " ended without a satisfying assignment"⟩]
    { solution := Satisfiability.formatResult i outcome.best outcome.feasible
      feasible := outcome.feasible
      log := log ++ ended }

/-- The searches of all instances of a text, in order, not yet made. -/
def searches (o : Options) (s : Surroundings) (text : String) :
    Except Failure (List (Thunk (Except Failure Entry))) :=
  match o.choice.resolve text with
  | .satisfiability =>
    match Satisfiability.parse text with
    | .error e => .error (.malformed e.line e.defect.message)
    | .ok instances =>
      .ok (instances.mapIdx fun k i => Thunk.mk fun _ => satisfiabilityEntry i (o.seed s k))
  | .knapsack =>
    match Knapsack.parse text with
    | .error e => .error (.malformed e.line e.defect.message)
    | .ok instances =>
      .ok (instances.mapIdx fun k i => Thunk.mk fun _ => knapsackEntry i (o.seed s k))

open Timing in
/-- Makes searches one after the other, each as a measurement if asked for. -/
def makeSearches (measuring : Bool) (runs : List (Thunk (Except Failure Entry))) :
    BenchT Failure Id (List Entry) :=
  runs.mapM fun run => do
    let result ← if measuring then measure (pure run.get) else pure run.get
    match result with
    | .ok entry => pure entry
    | .error failure => throw failure

/-- The searches of a text and the stopwatch that measured them. -/
structure Solved where
  entries : List Entry
  watch : Stopwatch

/-- Searches every instance of a text. -/
def solve (o : Options) (s : Surroundings) (text : String) : Except Failure Solved :=
  match searches o s text with
  | .error failure => .error failure
  | .ok runs =>
    match (makeSearches o.measuring runs).run.run { clock := s.clock } with
    | (.error failure, _) => .error failure
    | (.ok entries, bench) => .ok ⟨entries, bench.watch⟩

/-- What solving a text produced. -/
structure Report where
  /-- The results of all instances, in order. -/
  solutions : List String
  /-- The number of instances without a feasible result. -/
  infeasible : Nat := 0
  /-- The summary of the measurements, if there were any. -/
  timing? : Option Timing.Summary := none

/-- The report on a text, with a size for the timing summary. It fails where the
summary does. -/
def Solved.report (r : Solved) (size : Float) : Except Failure Report :=
  ((Timing.Summary.of? size r.watch).mapError Failure.ofFault).map fun timing? =>
    { solutions := r.entries.map Entry.solution
      infeasible := r.entries.countP (!·.feasible)
      timing? }

/-- Solves a text. -/
def solveText (o : Options) (s : Surroundings) (text : String) (size : Float) :
    Except Failure Report :=
  (solve o s text).bind (·.report size)

/-- The size of a file: its difficulty, or zero. -/
def fileSize (path : Path) : Float := path.difficulty?.getD 0.0

/-- The text of a file. -/
def readText (tree : Tree) (path : Path) : Except Failure String :=
  (tree.read path).mapError fun e => .io e.message

/-- Solves the text of a file. -/
def solveFile (tree : Tree) (o : Options) (s : Surroundings) (path : Path) :
    Except Failure Report :=
  (readText tree path).bind fun text => solveText o s text (fileSize path)

/-- The text that a report on a file is printed as: the timing summary when
measuring, else the verdict if there is a file to check against, else the
solutions. -/
def render (tree : Tree) (o : Options) (path : Path) (r : Report) : Except Failure String :=
  if o.measuring then .ok ((r.timing?.map Timing.Summary.format).getD "")
  else
    match o.check? with
    | some check =>
      (readText tree check).map fun expected =>
        formatVerdict (fileSize path) (path.fileName?.getD "") (differences expected r.solutions)
    | none => .ok (String.intercalate "\n" r.solutions)

/-- What there is to tell about blocks with a wrong number of clauses. -/
def blockLog (text : String) : List Message :=
  let blocks := Satisfiability.endedBlocks {} (Satisfiability.contentLines text.toList)
  (blocks.toList.zipIdx 1).filterMap fun (b, id) =>
    let declared := String.ofList b.declared
    if declared = b.clauses.size.repr then none
    else some ⟨.debug, "instance " ++ id.repr ++ " declares " ++ declared ++ " clauses, found " ++
      b.clauses.size.repr⟩

/-- What there is to tell about solving a text, in the order of events. -/
def solveLog (o : Options) (text : String) (result : Except Failure Solved) : List Message :=
  let kind := o.choice.resolve text
  let reading := if kind = .satisfiability then blockLog text else []
  match result with
  | .error _ => reading
  | .ok r =>
    let count := r.entries.length.repr
    let infeasible := r.entries.countP (!·.feasible)
    let noun := match kind with
      | .satisfiability => "weighted SAT"
      | .knapsack => "knapsack"
    let warning :=
      if kind = .satisfiability ∧ 0 < infeasible then
        [⟨.warn, infeasible.repr ++ " of " ++ count ++
          " SAT instances ended without a satisfying assignment; the search starts with every " ++
          "term false and only moves between satisfying assignments"⟩]
      else []
    reading ++ ⟨.info, "solving " ++ count ++ " " ++ noun ++ " instances"⟩ ::
      r.entries.flatMap Entry.log ++ warning

end Annealing.Solving
