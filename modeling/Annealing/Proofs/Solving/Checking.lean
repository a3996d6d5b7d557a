import Annealing.Proofs.Solving.Measuring
import Annealing.Proofs.Text.Joined

/-!
# Checking printed solutions

A check compares the words of lines that are not blank, and a newline between
two texts keeps their lines apart. So the printed solutions have the lines of
the solutions, whether a newline follows them or not, and a check against them
finds no difference, while a check against other lines finds one. The search
itself does not know about the check.
-/
namespace Annealing.Solving

open Text

/-! ## Content lines -/

theorem contentLines_eq_fields (text : String) : contentLines text =
    (((fields '\n' text.toList).map fun line => joinWords (words line)).filter
      (!·.isEmpty)).map String.ofList := by
  obtain ⟨rest, hrest, hall, -⟩ := forall₂_lines_fields text.toList
  have hwords : (lines text.toList ++ rest).map (fun line => joinWords (words line)) =
      (fields '\n' text.toList).map fun line => joinWords (words line) := by
    rw [← List.forall₂_eq_eq_eq, List.forall₂_map_left_iff, List.forall₂_map_right_iff]
    exact hall.imp fun _ _ h => congrArg joinWords h.words_eq
  have hblank : (rest.map fun line => joinWords (words line)).filter (!·.isEmpty) = [] := by
    obtain rfl | rfl := hrest <;> rfl
  rw [← hwords, List.map_append, List.filter_append, hblank, List.append_nil]
  rfl

theorem contentLines_append_newline (a b : String) :
    contentLines (a ++ "\n" ++ b) = contentLines a ++ contentLines b := by
  simp only [contentLines_eq_fields, fields_append_newline, List.map_append, List.filter_append]

theorem contentLines_append_newline_end (text : String) :
    contentLines (text ++ "\n") = contentLines text := by
  have happend := contentLines_append_newline text ""
  rwa [String.append_empty, show contentLines "" = [] from rfl, List.append_nil] at happend

theorem contentLines_intercalate (texts : List String) :
    contentLines (String.intercalate "\n" texts) = texts.flatMap contentLines := by
  induction texts with
  | nil => rfl
  | cons text texts ih =>
    cases texts with
    | nil => simp
    | cons next texts =>
      rw [String.intercalate_cons_cons, contentLines_append_newline, ih]
      exact List.flatMap_cons.symm

/-! ## Verdicts -/

theorem differencesFrom_eq_nil_iff (k : Nat) (expected actual : List String) :
    differencesFrom k expected actual = [] ↔ expected = actual := by
  fun_induction differencesFrom k expected actual with
  | case1 => simp
  | case2 => simp
  | case3 => simp
  | case4 k e expected actual ih => simpa using ih
  | case5 k e expected a actual hne => simp [hne]

theorem exists_intercalate_cons (separator text : String) (texts : List String) :
    ∃ rest, String.intercalate separator (text :: texts) = text ++ rest := by
  cases texts with
  | nil => exact ⟨"", by simp⟩
  | cons next texts =>
    exact ⟨separator ++ String.intercalate separator (next :: texts), by
      rw [String.intercalate_cons_cons, String.append_assoc]⟩

theorem formatVerdict_eq_ok_iff (size : Float) (file : String) (ds : List Difference) :
    formatVerdict size file ds = decimalText size ++ " OK " ++ file ↔ ds = [] := by
  cases ds with
  | nil =>
    have hword : " OK " = " " ++ "OK" ++ " " := rfl
    simp only [formatVerdict, List.isEmpty_nil, if_true, List.flatMap_nil,
      String.intercalate_singleton, hword, String.append_assoc]
  | cons d ds =>
    obtain ⟨rest, hrest⟩ := exists_intercalate_cons "\n"
      (decimalText size ++ " " ++ "FAIL" ++ " " ++ file) ((d :: ds).flatMap Difference.format)
    have hverdict : formatVerdict size file (d :: ds) =
        decimalText size ++ " " ++ "FAIL" ++ " " ++ file ++ rest := hrest
    rw [hverdict, ← String.toList_inj]
    simp

theorem differences_eq_nil_iff (expected : String) (solutions : List String) :
    differences expected solutions = [] ↔ contentLines expected = solutions.flatMap contentLines :=
  differencesFrom_eq_nil_iff _ _ _

variable {o : Options} {base : UInt64} {check path : Path} {tree tree' : Tree} {text R : String}
  {s s' : Surroundings} {size size' : Float}

/-- What is solved does not depend on the file to check against. -/
theorem solveText_check (hmeasuring : o.measuring = false) (hseed : o.seed? = some base)
    (check? : Option Path) (s s' : Surroundings) (text : String) (size size' : Float) :
    solveText o s text size = solveText { o with check? } s' text size' := by
  have hsearches : searches { o with check? } s' text = searches o s text :=
    searches_congr_seed (seed_eq_of_base hseed s' s) text
  rw [solveText_unmeasured hmeasuring, solveText_unmeasured (o := { o with check? }) hmeasuring,
    hsearches]

/-- A check against a file has the verdict `OK` exactly if the file has the content lines of
what is printed without a check. -/
theorem render_check_iff (hmeasuring : o.measuring = false) (hcheck : o.check? = none)
    (hseed : o.seed? = some base)
    (hprinted : (solveText o s text size).bind (render tree o path) = .ok R)
    {expected : String} (hread : readText tree' check = .ok expected) :
    (solveText { o with check? := some check } s' text size').bind
        (render tree' { o with check? := some check } path) =
      .ok (decimalText (fileSize path) ++ " OK " ++ path.fileName?.getD "") ↔
    contentLines expected = contentLines R := by
  obtain ⟨r, hsolved, hrender⟩ := bind_eq_ok_iff.mp hprinted
  simp only [render, hmeasuring, hcheck, Bool.false_eq_true, if_false, Except.ok.injEq] at hrender
  have hsolved' := (solveText_check hmeasuring hseed (some check) s s' text size size').symm.trans
    hsolved
  rw [hsolved', ← hrender, contentLines_intercalate, ← differences_eq_nil_iff,
    ← formatVerdict_eq_ok_iff (fileSize path) (path.fileName?.getD "")]
  simp only [Except.bind, render, hmeasuring, Bool.false_eq_true, if_false, hread, Except.map,
    Except.ok.injEq]

/-- If the solutions of a text are printed without a check, a check against what was printed
has the verdict `OK`, whether a newline follows it or not. A file with other content lines gets
another verdict. -/
theorem render_own_solutions (hmeasuring : o.measuring = false) (hcheck : o.check? = none)
    (hseed : o.seed? = some base)
    (hprinted : (solveText o s text size).bind (render tree o path) = .ok R) :
    ((readText tree' check = .ok R ∨ readText tree' check = .ok (R ++ "\n")) →
      (solveText { o with check? := some check } s' text size').bind
          (render tree' { o with check? := some check } path) =
        .ok (decimalText (path.difficulty?.getD 0.0) ++ " OK " ++ path.fileName?.getD "")) ∧
    ∀ expected, readText tree' check = .ok expected →
      contentLines expected ≠ contentLines R →
      (solveText { o with check? := some check } s' text size').bind
          (render tree' { o with check? := some check } path) ≠
        .ok (decimalText (path.difficulty?.getD 0.0) ++ " OK " ++ path.fileName?.getD "") := by
  constructor
  · rintro (hread | hread)
    · exact (render_check_iff hmeasuring hcheck hseed hprinted hread).mpr rfl
    · exact (render_check_iff hmeasuring hcheck hseed hprinted hread).mpr
        (contentLines_append_newline_end R)
  · intro expected hread hne hverdict
    exact hne ((render_check_iff hmeasuring hcheck hseed hprinted hread).mp hverdict)

/-- A tree with one file, in the working directory. -/
def oneFile (name content : String) : Tree := .ofPaths [] [(⟨name⟩, .file (.text content))]

theorem render_own_solutions_threeKnapsacks :
    ∃ R, (solveText { seed? := some 7 } {} threeKnapsacks 0.0).bind
        (render (oneFile "knap_40.inst.dat" threeKnapsacks) { seed? := some 7 }
          ⟨"knap_40.inst.dat"⟩) = .ok R ∧
      readText (oneFile "knap_40.sol.dat" (R ++ "\n")) ⟨"knap_40.sol.dat"⟩ = .ok (R ++ "\n") ∧
      (solveText { seed? := some 7, check? := some ⟨"knap_40.sol.dat"⟩ } { clock := id }
          threeKnapsacks 40.0).bind
        (render (oneFile "knap_40.sol.dat" (R ++ "\n"))
          { seed? := some 7, check? := some ⟨"knap_40.sol.dat"⟩ } ⟨"knap_40.inst.dat"⟩) =
        .ok "40 OK knap_40.inst.dat" := by
  obtain ⟨r, hr⟩ : ∃ r, solveText { seed? := some 7 } {} threeKnapsacks 0.0 = .ok r := by
    obtain ⟨failure, hcount, -⟩ | ⟨runs, entries, -, hs, hget⟩ :=
      searches_cases { seed? := some 7 } {} threeKnapsacks
    · cases hcount
    · exact ⟨_, solveText_eq_ok_iff.mpr ⟨runs, entries, none, hs, hget, rfl, rfl⟩⟩
  have hprinted : (solveText { seed? := some 7 } {} threeKnapsacks 0.0).bind
      (render (oneFile "knap_40.inst.dat" threeKnapsacks) { seed? := some 7 }
        ⟨"knap_40.inst.dat"⟩) = .ok (String.intercalate "\n" r.solutions) := by
    rw [hr]
    rfl
  have hfile : ∀ content, readText (oneFile "knap_40.sol.dat" content) ⟨"knap_40.sol.dat"⟩ =
      .ok content := fun _ => rfl
  have hverdict : decimalText ((Path.difficulty? ⟨"knap_40.inst.dat"⟩).getD 0.0) ++ " OK " ++
      (Path.fileName? ⟨"knap_40.inst.dat"⟩).getD "" = "40 OK knap_40.inst.dat" := by
    decide +kernel
  refine ⟨_, hprinted, hfile _, ?_⟩
  rw [← hverdict]
  exact (render_own_solutions rfl rfl rfl hprinted).1 (.inr (hfile _))

end Annealing.Solving
