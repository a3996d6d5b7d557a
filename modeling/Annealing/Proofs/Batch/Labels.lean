import Annealing.Proofs.Batch.Outcome
import Annealing.Proofs.Solving.Checking
import Annealing.Proofs.Text.Words

/-!
# Labels of reports

The difficulty of a file is told by its name three times: the batch sorts by
it, a worker writes it in front of a verdict or of a summary of times, and the
batch writes it in front of a failure. The text of a number is a word, so what
was written is the first word of the report. All three are the same number,
and so the first words of the reports that are listed never decrease.
-/
namespace Annealing

open Text

/-! ## Texts of numbers -/

namespace Decimal

theorem mem_of_mem_trimZeros {c : Char} {ds : List Char} (h : c ∈ trimZeros ds) : c ∈ ds := by
  unfold trimZeros at h
  rw [List.mem_reverse] at h
  exact List.mem_reverse.mp (List.dropWhile_subset _ h)

theorem isWord_positional (d : Decimal) : IsWord d.positional := by
  have hzeros : ∀ n, ∀ c ∈ List.replicate n '0', isBlank c = false := by
    intro n c hc
    rw [List.eq_of_mem_replicate hc]
    decide
  have hdigits := isWord_toDigits d.digits
  unfold positional
  cases d.exponent with
  | ofNat zeros => exact hdigits.append (hzeros zeros)
  | negSucc n =>
    generalize hpadded : List.replicate (n + 1 + 1 - (Nat.toDigits 10 d.digits).length) '0' ++
      Nat.toDigits 10 d.digits = padded
    have hfree : ∀ c ∈ padded, isBlank c = false := by
      rw [← hpadded]
      exact List.forall_mem_append.mpr ⟨hzeros _, hdigits.2⟩
    -- The padding leaves a digit in front of the point.
    have hlength : n + 1 < padded.length := by
      rw [← hpadded, List.length_append, List.length_replicate]
      omega
    have hwhole : IsWord (padded.take (padded.length - (n + 1))) := by
      refine ⟨?_, fun c hc => hfree c (List.mem_of_mem_take hc)⟩
      rw [← List.length_pos_iff, List.length_take]
      omega
    simp only [hpadded]
    split
    case h_1 => exact hwhole
    case h_2 =>
      refine hwhole.append (List.forall_mem_cons.mpr ⟨by decide, ?_⟩)
      intro c hc
      exact hfree c (List.mem_of_mem_drop (mem_of_mem_trimZeros hc))

end Decimal

theorem Binary64.isWord_text (x : Binary64) : IsWord x.text.toList := by
  unfold text
  split
  case isTrue => decide
  case isFalse =>
    extract_lets magnitude
    have hmagnitude : IsWord magnitude.toList := by
      unfold magnitude
      split
      · rw [String.toList_ofList]
        exact Decimal.isWord_positional _
      · decide
    split
    case isTrue =>
      have hsign : IsWord "-".toList := by decide
      rw [String.toList_append]
      exact hsign.append hmagnitude.2
    case isFalse => exact hmagnitude

namespace Text

/-- The first word of a text. -/
def label? (text : String) : Option String := (words text.toList).head?.map String.ofList

variable {label text : String}

theorem label?_append (h : IsWord label.toList) (rest : String) :
    label? (label ++ " " ++ rest) = some label := by
  have hspace : " ".toList = [' '] := rfl
  rw [label?, String.toList_append, String.toList_append, hspace, List.append_assoc,
    List.singleton_append, words_append_of_isWord h (by decide), List.head?_cons, Option.map_some,
    String.ofList_toList]

theorem label?_append_newline (text : String) : label? (text ++ "\n") = label? text := by
  have hnewline : "\n".toList = ['\n'] := rfl
  rw [label?, String.toList_append, hnewline,
    words_append_blanks (List.forall_mem_singleton.mpr rfl), label?]

theorem label?_trim (text : String) :
    label? (String.ofList (trim text.toList)) = label? text := by
  rw [label?, String.toList_ofList, words_trim, label?]

/-- A text with something else than blanks has a first word. -/
theorem exists_label? (h : trim text.toList ≠ []) : ∃ label, label? text = some label := by
  rw [ne_eq, trim_eq_nil_iff, ← words_eq_nil_iff] at h
  obtain ⟨w, ws, hwords⟩ := List.exists_cons_of_ne_nil h
  exact ⟨String.ofList w, by rw [label?, hwords, List.head?_cons, Option.map_some]⟩

end Text

/-! ## Labels of rendered reports -/

namespace Solving

variable {tree : Tree} {o : Options} {s : Surroundings} {path : Path} {r : Report} {R : String}

theorem label?_formatVerdict (size : Float) (file : String) (ds : List Difference) :
    label? (formatVerdict size file ds) = some (decimalText size) := by
  unfold formatVerdict
  extract_lets word
  obtain ⟨rest, hrest⟩ := exists_intercalate_cons "\n"
    (decimalText size ++ " " ++ word ++ " " ++ file) (ds.flatMap Difference.format)
  rw [hrest, String.append_assoc, String.append_assoc, String.append_assoc]
  exact label?_append (Binary64.isWord_text _) _

theorem label?_summary (summary : Timing.Summary) :
    label? summary.format = some (decimalText summary.size) := by
  rw [Timing.Summary.format, String.intercalate_cons_cons]
  exact label?_append (Binary64.isWord_text _) _

theorem size_of_solveFile (h : solveFile tree o s path = .ok r) :
    ∀ summary ∈ r.timing?, summary.size = fileSize path := by
  obtain ⟨text, -, hsolve⟩ := bind_eq_ok_iff.mp h
  obtain ⟨solved, -, hreport⟩ := bind_eq_ok_iff.mp hsolve
  obtain ⟨timing?, htiming, rfl⟩ := Solved.report_eq_ok_iff.mp hreport
  exact Timing.Summary.size_eq_of_mem htiming

/-- Whether files are measured or checked, so that what is printed has a label. -/
def Options.Labels (o : Options) : Prop := o.measuring = true ∨ o.check?.isSome = true

/-- What is rendered when measuring or checking begins with the size of the file. -/
theorem label?_of_render (hmode : o.Labels) (hsolve : solveFile tree o s path = .ok r)
    (h : render tree o path r = .ok R) :
    ∀ label ∈ label? R, label = decimalText (fileSize path) := by
  unfold render at h
  split at h
  case isTrue =>
    cases h
    cases htiming : r.timing? with
    | none => exact nofun
    | some summary =>
      intro label hlabel
      rw [Option.map_some, Option.getD_some, label?_summary, Option.mem_some] at hlabel
      rw [← hlabel, size_of_solveFile hsolve summary htiming]
  case isFalse hmeasuring =>
    obtain ⟨check, hcheck⟩ := Option.isSome_iff_exists.mp (hmode.resolve_left hmeasuring)
    rw [hcheck] at h
    obtain ⟨expected, -, rfl⟩ := map_eq_ok_iff.mp h
    intro label hlabel
    rw [label?_formatVerdict, Option.mem_some] at hlabel
    exact hlabel.symm

/-- A text is what solving a file prints when measuring or checking: the rendered report, which
may be followed by the end of its line. -/
def PrintsReport (path : Path) (text : String) : Prop :=
  ∃ tree o s R, Options.Labels o ∧
    (solveFile tree o s path).bind (render tree o path) = .ok R ∧ (text = R ∨ text = R ++ "\n")

theorem PrintsReport.label_eq {text : String} (h : PrintsReport path text) :
    ∀ label ∈ label? text, label = decimalText (fileSize path) := by
  obtain ⟨tree, o, s, R, hmode, hrendered, htext⟩ := h
  obtain ⟨r, hsolve, hrender⟩ := bind_eq_ok_iff.mp hrendered
  have hlabel : label? text = label? R := by
    rcases htext with rfl | rfl
    · rfl
    · exact label?_append_newline R
  rw [hlabel]
  exact label?_of_render hmode hsolve hrender

end Solving

namespace Batch

open Solving

/-! ## Labels of reports -/

/-- A report on a file whose difficulty is told by its name. If its worker completed, it printed
a rendered report on that file. -/
structure JobReport.Labelled (r : JobReport) : Prop where
  built : r.job = .ofPath r.job.path
  printed : r.status = .completed → PrintsReport r.job.path r.output

theorem JobReport.Labelled.difficulty_text {r : JobReport} (h : r.Labelled) :
    r.job.difficulty.text = decimalText (fileSize r.job.path) := by
  rw [h.built]
  rfl

/-- The first word of a report is the difficulty of its job, whatever became of the worker. -/
theorem JobReport.Labelled.label?_format {r : JobReport} (h : r.Labelled) (hne : r.format ≠ "") :
    label? r.format = some r.job.difficulty.text := by
  cases hstatus : r.status with
  | completed =>
    have hformat : r.format = String.ofList (trim r.output.toList) := by
      rw [JobReport.format, hstatus]
    rw [hformat, ne_eq, String.ofList_eq_empty_iff] at hne
    obtain ⟨label, hlabel⟩ := exists_label? hne
    rw [hformat, label?_trim, hlabel, h.difficulty_text,
      (h.printed hstatus).label_eq label hlabel]
  | failed reason =>
    have hformat : r.format = r.job.difficulty.text ++ " " ++
        ("ERROR " ++ r.job.fileName ++ ": " ++ reason) := by
      have hword : " ERROR " = " " ++ "ERROR " := rfl
      simp only [JobReport.format, hstatus, hword, String.append_assoc]
    rw [hformat]
    exact label?_append (Binary64.isWord_text _) _

/-- The difficulties of the jobs whose reports have a text. -/
def listedDifficulties (reports : List JobReport) : List Binary64 :=
  (reports.filter (!·.format.isEmpty)).map fun r => r.job.difficulty

theorem map_label?_reportLines {reports : List JobReport} (h : ∀ r ∈ reports, r.Labelled) :
    (reportLines reports).map label? =
      (listedDifficulties reports).map fun d => some d.text := by
  rw [reportLines, List.filter_map, listedDifficulties, List.map_map, List.map_map]
  apply List.map_congr_left
  intro r hr
  obtain ⟨hmem, hne⟩ := List.mem_filter.mp hr
  exact (h r hmem).label?_format (by simpa using hne)

theorem pairwise_sortReports (reports : List JobReport) :
    (sortReports reports).Pairwise fun a b => a.job.difficulty.rank ≤ b.job.difficulty.rank := by
  have hsorted : (sortReports reports).Pairwise fun a b => (a.job.listOrder b.job).isLE = true :=
    Sorting.pairwise_isLE (fun a b : JobReport => a.job.listOrder b.job) reports
  exact hsorted.imp Job.rank_le_of_listOrder

/-- Reports with labels are listed by them. -/
theorem listed_labelled {reports : List JobReport} (h : ∀ r ∈ reports, r.Labelled) :
    (reportLines (sortReports reports)).map label? =
      (listedDifficulties (sortReports reports)).map (fun d => some d.text) ∧
    (listedDifficulties (sortReports reports)).Pairwise fun a b => a.rank ≤ b.rank := by
  constructor
  · exact map_label?_reportLines fun r hr => h r (List.mem_mergeSort.mp hr)
  · exact List.pairwise_map.mpr ((pairwise_sortReports reports).sublist List.filter_sublist)

section
variable {limit : Nat} {work : Job → Ending} {jobs : List Job} {p : Pool}

theorem labelled_report {job : Job} (built : job = .ofPath job.path)
    (printed : ∀ text, work job = .printed text → PrintsReport job.path text) :
    ((work job).report job).Labelled := by
  cases hwork : work job with
  | printed text => exact ⟨built, fun _ => printed text hwork⟩
  | failed failure => exact ⟨built, nofun⟩
  | crashed => exact ⟨built, nofun⟩

theorem Completes.labelled (h : Completes limit work jobs p)
    (built : ∀ job ∈ jobs, job = .ofPath job.path)
    (printed : ∀ job ∈ jobs, ∀ text, work job = .printed text → PrintsReport job.path text) :
    ∀ r ∈ p.reports, r.Labelled := by
  obtain ⟨order, hperm, hreports⟩ := h.reports_eq
  rw [hreports]
  intro r hr
  obtain ⟨job, hjob, rfl⟩ := List.mem_map.mp hr
  have hmem := hperm.mem_iff.mp hjob
  exact labelled_report (built job hmem) (printed job hmem)

end

/-- Every report begins with the difficulty by which it is sorted, so the difficulties at the
beginnings of the listed reports never decrease. -/
theorem reportLines_labelled {limit : Nat} {work : Job → Ending} {jobs : List Job} {p : Pool}
    (built : ∀ job ∈ jobs, job = .ofPath job.path)
    (printed : ∀ job ∈ jobs, ∀ text, work job = .printed text → PrintsReport job.path text)
    (h : Completes limit work jobs p) :
    (∀ r ∈ p.reports, r.format ≠ "" → label? r.format = some r.job.difficulty.text) ∧
    (sortReports p.reports).Pairwise
      (fun a b => a.job.difficulty.rank ≤ b.job.difficulty.rank) ∧
    (reportLines (sortReports p.reports)).map label? =
      (listedDifficulties (sortReports p.reports)).map (fun d => some d.text) ∧
    (listedDifficulties (sortReports p.reports)).Pairwise (fun a b => a.rank ≤ b.rank) := by
  have hlabelled := h.labelled built printed
  exact ⟨fun r hr => (hlabelled r hr).label?_format, pairwise_sortReports _,
    listed_labelled hlabelled⟩

/-- Two files without instances, and the lines expected for them. -/
def checkedFiles : Tree := .ofPaths []
  [(⟨"knap_40.inst.dat"⟩, .file (.text "")), (⟨"sat_7.dat"⟩, .file (.text "")),
    (⟨"none.sol.dat"⟩, .file (.text "")), (⟨"one.sol.dat"⟩, .file (.text "1 1"))]

/-- The jobs of these files and of one whose name has no number. -/
def checkedJobs : List Job :=
  [.ofPath ⟨"knap_40.inst.dat"⟩, .ofPath ⟨"notes"⟩, .ofPath ⟨"sat_7.dat"⟩]

/-- What the workers of these jobs print, of which one crashes. -/
def checkedWork (job : Job) : Ending :=
  if job.path.text = "knap_40.inst.dat" then .printed "40 OK knap_40.inst.dat\n"
  else if job.path.text = "sat_7.dat" then .printed "7 FAIL sat_7.dat\n- 1 1\n"
  else .crashed

theorem printsReport_ok : PrintsReport ⟨"knap_40.inst.dat"⟩ "40 OK knap_40.inst.dat\n" := by
  have hsame : differences "" [] = [] := (differences_eq_nil_iff _ _).mpr (by decide +kernel)
  have hverdict : formatVerdict (fileSize ⟨"knap_40.inst.dat"⟩) "knap_40.inst.dat" [] =
      "40 OK knap_40.inst.dat" := by decide +kernel
  refine ⟨checkedFiles, { check? := some ⟨"none.sol.dat"⟩ }, {}, "40 OK knap_40.inst.dat",
    .inr rfl, ?_, .inr rfl⟩
  rw [← hverdict, ← hsame]
  rfl

theorem printsReport_fail : PrintsReport ⟨"sat_7.dat"⟩ "7 FAIL sat_7.dat\n- 1 1\n" := by
  have hexpected : contentLines "1 1" = ["1 1"] := by decide +kernel
  have hmissing : differences "1 1" [] = [⟨1, some "1 1", none⟩] := by
    simp [differences, hexpected, differencesFrom]
  have hverdict : formatVerdict (fileSize ⟨"sat_7.dat"⟩) "sat_7.dat"
      [⟨1, some "1 1", none⟩] = "7 FAIL sat_7.dat\n- 1 1" := by decide +kernel
  refine ⟨checkedFiles, { check? := some ⟨"one.sol.dat"⟩ }, {}, "7 FAIL sat_7.dat\n- 1 1",
    .inr rfl, ?_, .inr rfl⟩
  rw [← hverdict, ← hmissing]
  rfl

theorem listing_checkedJobs : listing checkedJobs =
    [.ofPath ⟨"notes"⟩, .ofPath ⟨"sat_7.dat"⟩, .ofPath ⟨"knap_40.inst.dat"⟩] := by
  have distinct : checkedJobs.Pairwise fun a b => a.listOrder b ≠ .eq := by decide +kernel
  have hperm : checkedJobs.Perm
      [.ofPath ⟨"notes"⟩, .ofPath ⟨"sat_7.dat"⟩, .ofPath ⟨"knap_40.inst.dat"⟩] := by
    decide +kernel
  refine (Sorting.sort_eq_of_perm distinct hperm).trans (List.mergeSort_of_pairwise ?_)
  decide +kernel

theorem reportLines_labelled_checkedJobs :
    (∀ job ∈ checkedJobs, job = .ofPath job.path) ∧
    (∀ job ∈ checkedJobs, ∀ text, checkedWork job = .printed text →
      PrintsReport job.path text) ∧
    ∃ p, Completes 2 checkedWork checkedJobs p ∧
      reportLines (sortReports p.reports) =
        ["0 ERROR notes: worker panicked", "7 FAIL sat_7.dat\n- 1 1", "40 OK knap_40.inst.dat"] ∧
      (reportLines (sortReports p.reports)).map label? =
        (listedDifficulties (sortReports p.reports)).map (fun d => some d.text) ∧
      (listedDifficulties (sortReports p.reports)).Pairwise fun a b => a.rank ≤ b.rank := by
  have built : ∀ job ∈ checkedJobs, job = .ofPath job.path := by decide +kernel
  have printed : ∀ job ∈ checkedJobs, ∀ text, checkedWork job = .printed text →
      PrintsReport job.path text := by
    intro job hjob text hwork
    simp only [checkedJobs, List.mem_cons, List.not_mem_nil, or_false] at hjob
    rcases hjob with rfl | rfl | rfl
    · cases hwork
      exact printsReport_ok
    · cases hwork
    · cases hwork
      exact printsReport_fail
  have hrun := completes_runPool 2 checkedWork (fun _ => 1) checkedJobs
  obtain ⟨-, -, hlabels, hsorted⟩ := reportLines_labelled built printed hrun
  refine ⟨built, printed, _, hrun, ?_, hlabels, hsorted⟩
  rw [hrun.sortReports_eq (by decide +kernel), listing_checkedJobs]
  decide +kernel

end Batch
end Annealing
