import Annealing.Proofs.Batch.CommandLines
import Annealing.Proofs.Batch.Labels
import Annealing.Proofs.Text.Fields

/-!
# Workers that run this program

By default a worker is this program itself, started on a command line for its
file. When it ends well, it has read its command line as it was meant and has
printed a report on the file. Every file of a batch has a name, so in a batch
that measures or checks the listed reports begin with their difficulties.
-/
namespace Annealing

/-! ## Files have names -/

theorem Path.pieces_ne_nil (p : Path) : p.pieces ≠ [] := by
  unfold Path.pieces
  rw [Text.fields_eq_splitOn, ne_eq, List.map_eq_nil_iff]
  exact List.splitOn_ne_nil _ _

/-- A path ends in its last piece if that is a name. -/
theorem Path.fileName?_eq {p : Path} {before : List String} {last : String}
    (hpieces : p.pieces = before ++ [last])
    (hname : Path.componentOf? last = some (.name last)) : p.fileName? = some last := by
  have hinner : (p.pieces.filterMap Path.componentOf?).getLast? = some (.name last) := by
    rw [hpieces, List.filterMap_append, List.filterMap_cons_some hname, List.filterMap_nil,
      List.getLast?_concat]
  have hlast : p.components.getLast? = some (.name last) := by
    unfold Path.components
    split
    · rw [List.getLast?_cons, hinner, Option.getD_some]
    · split
      · rw [List.getLast?_cons, hinner, Option.getD_some]
      · exact hinner
  rw [Path.fileName?, hlast]

namespace Tree

variable {t : Tree} {p : Path} {place : Place} {piece : String} {names : List String}
  {content : Content}

/-- Only a name leads from a place to a file. -/
theorem componentOf?_of_step (h : t.step place piece = .ok (names, .file content)) :
    Path.componentOf? piece = some (.name piece) := by
  unfold step at h
  split at h
  case h_1 => cases h
  case h_2 =>
    split at h
    case isTrue => cases h
    case isFalse hstay =>
      rw [not_or] at hstay
      split at h
      case isTrue => cases h
      case isFalse hup =>
        unfold Path.componentOf?
        split
        · exact absurd rfl hstay.1
        · exact absurd rfl hstay.2
        · exact absurd rfl hup
        · rfl

/-- A path that leads to a file is not empty and ends in a name. -/
theorem exists_fileName? (h : t.isFile p = true) :
    p.text ≠ "" ∧ ∃ name, p.fileName? = some name := by
  unfold isFile at h
  split at h
  case h_2 => cases h
  case h_1 names content hfind =>
    unfold find at hfind
    split at hfind
    case isTrue => cases hfind
    case isFalse =>
      split at hfind
      case isTrue => cases hfind
      case isFalse hnonempty =>
        split at hfind
        case isTrue => cases hfind
        case isFalse =>
          have hpieces := List.dropLast_append_getLast p.pieces_ne_nil
          rw [← hpieces, List.foldlM_append, andThen_eq_ok_iff] at hfind
          obtain ⟨place, -, hstep⟩ := hfind
          rw [List.foldlM_cons, andThen_eq_ok_iff] at hstep
          obtain ⟨reached, hstep, hreached⟩ := hstep
          cases hreached
          exact ⟨by simpa using hnonempty,
            _, Path.fileName?_eq hpieces.symm (componentOf?_of_step hstep)⟩

end Tree

/-! ## One worker -/

namespace Command

open Solving

variable {e : Environment} {r : SolveRequest}

theorem asLines_of_rendered (rendered : String) :
    asLines (if rendered.isEmpty then [] else [rendered]) = rendered ∨
      asLines (if rendered.isEmpty then [] else [rendered]) = rendered ++ "\n" := by
  split
  case isTrue h =>
    left
    rw [String.isEmpty_iff.mp h]
    rfl
  case isFalse =>
    right
    simp [asLines, String.join]

theorem code_failed_ne_zero (log : List Message) (failure : Failure) :
    (Answer.failed log failure).code ≠ 0 := by
  unfold Answer.failed
  split
  · exact nofun
  · exact nofun

/-- A run that solves a file prints a report on it. -/
theorem printsReport_runSolve (hmode : r.options.Labels) (h : (runSolve e r).code = 0) :
    PrintsReport r.file (runSolve e r).output := by
  unfold runSolve at h ⊢
  cases htext : readText e.tree r.file with
  | error failure =>
    rw [htext] at h
    exact absurd h (code_failed_ne_zero _ _)
  | ok text =>
    rw [htext] at h
    simp only at h ⊢
    split at h
    case h_1 => exact absurd h (code_failed_ne_zero _ _)
    case h_2 rendered hrendered =>
      obtain ⟨report, hreport, hrender⟩ := bind_eq_ok_iff.mp hrendered
      simp only
      refine ⟨e.tree, r.options, e.surroundings r.file, rendered, hmode, ?_,
        asLines_of_rendered rendered⟩
      refine bind_eq_ok_iff.mpr ⟨report, ?_, hrender⟩
      exact bind_eq_ok_iff.mpr ⟨text, htext, hreport⟩

end Command

namespace Batch

open Solving Text

section
variable {s : Settings} {e : Command.Environment} {job : Job} {text : String}

theorem words_eq_arguments {tree : Tree} {file : Path}
    (h : (s.words tree file).any hasNul = false) : s.words tree file = s.arguments tree file := by
  have hpassed : ∀ word ∈ s.words tree file, passedWord word = word := by
    intro word hword
    exact passedWord_eq_self_iff.mpr (by simpa using List.any_eq_false.mp h word hword)
  rw [Settings.arguments, List.map_congr_left hpassed, List.map_id']

/-- If a worker that runs this program prints something, its words had no NUL character and so
were passed as they are. -/
theorem worker_of_execute (hself : s.program? = none)
    (h : execute s e.tree e.allPrograms job = .ok text) :
    (s.words e.tree job.path).any hasNul = false ∧
      Command.worker e (s.arguments e.tree job.path) = ⟨0, text⟩ := by
  unfold execute at h
  split at h
  case h_1 => cases h
  case h_2 exit hrun =>
    rw [hself] at hrun
    unfold Programs.run at hrun
    simp only [Option.any_none, Bool.false_or, Option.elim_none] at hrun
    split at hrun
    case isTrue => cases hrun
    case isFalse hnul =>
      rw [Bool.not_eq_true] at hnul
      split at hrun
      case isTrue => cases hrun
      case isFalse =>
        cases hrun
        rw [← words_eq_arguments hnul]
        split at h
        case isFalse => cases h
        case isTrue hcode =>
          refine ⟨hnul, ?_⟩
          cases hexit : e.allPrograms.self (s.words e.tree job.path)
          rw [hexit] at hcode h
          cases h
          exact hexit.trans (congrArg (Exit.mk · _) hcode)

theorem mem_words_of_passed {tree : Tree} {file path : Path} (h : path ∈ s.passedPaths tree file) :
    path.text ∈ s.words tree file := by
  unfold Settings.passedPaths Settings.passedPath? at h
  unfold Settings.words
  rcases List.mem_cons.mp h with rfl | h
  · simp
  · split at h
    case isTrue => simp at h
    case isFalse hmeasuring =>
      rw [Option.mem_toList] at h
      simp [hmeasuring, Option.mem_def.mp h]

/-- A worker that runs this program to measure or to check prints a report on its file. -/
theorem printsReport_execute (hself : s.program? = none)
    (hmode : s.measuring = true ∨ (s.passedPath? e.tree job.path).isSome = true)
    (hfile : job.path.text ≠ "") (h : execute s e.tree e.allPrograms job = .ok text) :
    PrintsReport job.path text := by
  obtain ⟨hnul, hworker⟩ := worker_of_execute hself h
  have hfree : ∀ path ∈ s.passedPaths e.tree job.path, hasNul path.text = false := by
    intro path hpath
    simpa using List.any_eq_false.mp hnul _ (mem_words_of_passed hpath)
  have hpassed : ∀ path ∈ s.passedPaths e.tree job.path,
      hasNul path.text = false ∧ Command.isOptionLike path.text = false := by
    intro path hpath
    refine ⟨hfree path hpath, ?_⟩
    by_contra hlike
    rw [Bool.not_eq_false] at hlike
    obtain ⟨error, herror⟩ :=
      Settings.exists_parseRequest_error hfile hpath (hfree path hpath) hlike
    simp only [Command.worker, herror, Exit.mk.injEq] at hworker
    exact absurd hworker.1 (by decide)
  rw [Command.worker, Settings.parseRequest_of_passed hfile hpassed] at hworker
  simp only [Exit.mk.injEq] at hworker
  have hlabels : (s.request e.tree job.path).options.Labels := hmode
  have hprints := Command.printsReport_runSolve hlabels hworker.1
  rw [hworker.2] at hprints
  exact hprints

end

/-! ## All workers of a batch -/

theorem printed_ofResult {result : Except Failure String} {text : String}
    (h : Ending.ofResult result = .printed text) : result = .ok text := by
  cases result with
  | error failure => cases h
  | ok printed =>
    cases h
    rfl

theorem job_of_collectJobs {tree : Tree} {directory : Path} {bound? : Option Float}
    {jobs : List Job} (h : collectJobs tree directory bound? = .ok jobs) :
    ∀ job ∈ jobs, job = .ofPath job.path ∧ tree.isFile job.path = true := by
  obtain ⟨names, -, rfl⟩ := map_eq_ok_iff.mp h
  have hall : ∀ job ∈ ((names.map directory.join).filter tree.isFile).map Job.ofPath,
      job = .ofPath job.path ∧ tree.isFile job.path = true := by
    intro job hjob
    obtain ⟨path, hpath, rfl⟩ := List.mem_map.mp hjob
    exact ⟨rfl, (List.mem_filter.mp hpath).2⟩
  cases bound? with
  | none => exact hall
  | some bound => exact fun job hjob => hall job (List.mem_filter.mp hjob).1

theorem Settings.passedPath?_isSome {s : Settings} {tree : Tree} {file : Path}
    (hmeasuring : s.measuring = false) (hcheck : s.checkDirectory?.isSome = true)
    (hfile : tree.isFile file = true) : (s.passedPath? tree file).isSome = true := by
  obtain ⟨directory, hdirectory⟩ := Option.isSome_iff_exists.mp hcheck
  obtain ⟨-, name, hname⟩ := Tree.exists_fileName? hfile
  unfold passedPath? expectedPath?
  simp only [hmeasuring, Bool.false_eq_true, if_false, hdirectory, hname]
  split <;> rfl

theorem completes_of_runWith {s : Settings} {tree : Tree} {work : Job → Ending}
    {pick : Nat → Nat} {pool : Pool} (h : runWith s tree work pick = .ok pool) :
    ∃ jobs, collectJobs tree s.directory s.maxDifficulty? = .ok jobs ∧
      Completes s.jobs work jobs pool := by
  unfold runWith at h
  split at h
  case h_1 => cases h
  case h_2 =>
    split at h
    case h_1 => cases h
    case h_2 jobs hjobs =>
      cases h
      exact ⟨jobs, hjobs, completes_runPool s.jobs work pick jobs⟩

/-- A batch that measures or checks with this program lists its reports by the difficulties with
which they begin. -/
theorem run_labelled {s : Settings} {e : Command.Environment} {reports : List JobReport}
    (hself : s.program? = none) (hmode : s.measuring = true ∨ s.checkDirectory?.isSome = true)
    (h : run s e.tree e.allPrograms = .ok reports) :
    (reportLines reports).map label? =
      (listedDifficulties reports).map (fun d => some d.text) ∧
    (listedDifficulties reports).Pairwise fun a b => a.rank ≤ b.rank := by
  obtain ⟨pool, hpool, rfl⟩ := map_eq_ok_iff.mp h
  obtain ⟨jobs, hjobs, hcompletes⟩ := completes_of_runWith hpool
  have hjob := job_of_collectJobs hjobs
  apply listed_labelled
  apply hcompletes.labelled fun job hmem => (hjob job hmem).1
  intro job hmem text hwork
  obtain ⟨-, hfile⟩ := hjob job hmem
  refine printsReport_execute hself ?_ (Tree.exists_fileName? hfile).1
    (printed_ofResult hwork)
  cases hmeasuring : s.measuring with
  | true => exact .inl rfl
  | false =>
    exact .inr (Settings.passedPath?_isSome hmeasuring (by simpa [hmeasuring] using hmode) hfile)

end Batch
end Annealing
