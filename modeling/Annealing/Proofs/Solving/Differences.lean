import Annealing.Proofs.Solving.Checking
import Annealing.Proofs.Text.Squeezing

/-!
# Differences by position

Results are compared by their tidy lines, those that are not blank, squeezed
and trimmed. The differences of two lists of lines are exact: they come in the
order of their positions, there is one for each position where the lists do
not have the same line, and it has what both lists have there. So they say how
one list becomes the other.
-/
namespace Annealing.Solving

open Text

/-! ## Tidy lines -/

/-- The lines of a text that are not blank, squeezed and trimmed. -/
def tidyLines (text : String) : List String :=
  (nonBlank (lines text.toList)).map fun line => String.ofList (trim (squeeze line))

theorem isEmpty_joinWords_words (line : List Char) :
    (joinWords (words line)).isEmpty = line.all isBlank := by
  rw [Bool.eq_iff_iff, List.isEmpty_iff, ← words_eq_nil_iff]
  constructor
  · intro h
    have hwords := words_intercalate (b := ' ') rfl (isWord_of_mem_words line)
    rw [← hwords, ← joinWords_eq_intercalate, h, words_nil]
  · intro h
    rw [h]
    rfl

/-- It makes no difference whether blank lines are dropped before or after the words of the
lines are joined. -/
theorem contentLines_eq_tidyLines (text : String) : contentLines text = tidyLines text := by
  rw [contentLines, tidyLines, nonBlank, List.filter_map, List.map_map]
  have hblank : (fun line : List Char => !line.isEmpty) ∘ (fun line => joinWords (words line)) =
      fun line => !line.all isBlank := by
    funext line
    exact congrArg _ (isEmpty_joinWords_words line)
  have htidy : String.ofList ∘ (fun line => joinWords (words line)) =
      fun line => String.ofList (trim (squeeze line)) := by
    funext line
    exact congrArg _ (trim_squeeze line).symm
  rw [hblank, htidy]

/-! ## Rewriting -/

/-- What becomes of a line: at a position with a difference the actual line, if there is one. -/
def amend (ds : List Difference) (line : String) (k : Nat) : Option String :=
  match ds.find? (·.line == k) with
  | some d => d.actual?
  | none => some line

/-- Lines, counted from `k` on, as they are after some differences. Lines that were not
expected are added at the end. -/
def rewriteFrom (k : Nat) (ds : List Difference) (ls : List String) : List String :=
  (ls.zipIdx k).filterMap (fun (line, j) => amend ds line j) ++
    (ds.filter (·.expected?.isNone)).filterMap (·.actual?)

section
variable {k j : Nat} {d : Difference} {ds : List Difference} {expected actual ls : List String}

theorem amend_of_forall_ne (h : ∀ d ∈ ds, d.line ≠ k) (line : String) :
    amend ds line k = some line := by
  have hnone : ds.find? (·.line == k) = none := by
    rw [List.find?_eq_none]
    intro d hd
    simpa using h d hd
  rw [amend, hnone]

theorem amend_cons_of_ne (h : d.line ≠ k) (line : String) :
    amend (d :: ds) line k = amend ds line k := by
  rw [amend, List.find?_cons_of_neg (by simpa using h), amend]

/-- Where the first difference is further on, the first line is kept. -/
theorem rewriteFrom_cons_of_lt (h : ∀ d ∈ ds, k < d.line) (line : String) (ls : List String) :
    rewriteFrom k ds (line :: ls) = line :: rewriteFrom (k + 1) ds ls := by
  have hkept := amend_of_forall_ne (fun d hd => (h d hd).ne') line
  simp only [rewriteFrom, List.zipIdx_cons, List.filterMap_cons, hkept, List.cons_append]

/-- A difference at the position of the first line replaces or drops it. -/
theorem rewriteFrom_cons_cons (e : String) (a? : Option String) (ds : List Difference)
    (line : String) (ls : List String) :
    rewriteFrom k (⟨k, some e, a?⟩ :: ds) (line :: ls) =
      a?.toList ++ rewriteFrom (k + 1) ds ls := by
  have hfirst : amend (⟨k, some e, a?⟩ :: ds) line k = a? := by
    rw [amend, List.find?_cons_of_pos (by simp)]
  have hrest : (ls.zipIdx (k + 1)).filterMap
      (fun (line, j) => amend (⟨k, some e, a?⟩ :: ds) line j) =
        (ls.zipIdx (k + 1)).filterMap fun (line, j) => amend ds line j := by
    apply List.filterMap_congr
    rintro ⟨line, j⟩ hj
    have hlt : k < j := List.le_snd_of_mem_zipIdx hj
    exact amend_cons_of_ne hlt.ne line
  simp only [rewriteFrom, List.zipIdx_cons, List.filterMap_cons, hfirst, hrest]
  cases a? with
  | none => rfl
  | some a => rfl

theorem rewriteFrom_nil (a : String) (ds : List Difference) :
    rewriteFrom k (⟨k, none, some a⟩ :: ds) [] = a :: rewriteFrom (k + 1) ds [] := rfl

theorem le_line (h : d ∈ differencesFrom k expected actual) : k ≤ d.line := by
  fun_induction differencesFrom k expected actual with
  | case1 => cases h
  | case2 k e expected ih | case3 k a actual ih | case5 k e expected a actual hne ih =>
    rcases List.mem_cons.mp h with rfl | h
    · exact le_rfl
    · exact (Nat.le_succ k).trans (ih h)
  | case4 k expected a actual ih => exact (Nat.le_succ k).trans (ih h)

theorem pairwise_differencesFrom (k : Nat) (expected actual : List String) :
    (differencesFrom k expected actual).Pairwise (·.line < ·.line) := by
  fun_induction differencesFrom k expected actual with
  | case1 => exact .nil
  | case2 k e expected ih | case3 k a actual ih | case5 k e expected a actual hne ih =>
    exact .cons (fun d hd => Nat.lt_of_succ_le (le_line hd)) ih
  | case4 k expected a actual ih => exact ih

/-- There is a difference for each position where the lists do not have the same line. -/
theorem mem_differencesFrom_iff : d ∈ differencesFrom k expected actual ↔
    ∃ j, d = ⟨k + j, expected[j]?, actual[j]?⟩ ∧ expected[j]? ≠ actual[j]? := by
  have hshift : ∀ k j : Nat, k + 1 + j = k + (j + 1) := by omega
  fun_induction differencesFrom k expected actual with
  | case1 => simp
  | case2 k e expected ih =>
    refine Iff.trans ?_ Nat.or_exists_add_one
    simp [ih, hshift]
  | case3 k a actual ih =>
    refine Iff.trans ?_ Nat.or_exists_add_one
    simp [ih, hshift]
  | case4 k expected a actual ih =>
    refine Iff.trans ?_ Nat.or_exists_add_one
    simp [ih, hshift]
  | case5 k e expected a actual hne ih =>
    refine Iff.trans ?_ Nat.or_exists_add_one
    simp [ih, hshift, hne]

/-- Rewritten as the differences say, the expected lines are the actual ones. -/
theorem rewriteFrom_differencesFrom (k : Nat) (expected actual : List String) :
    rewriteFrom k (differencesFrom k expected actual) expected = actual := by
  fun_induction differencesFrom k expected actual with
  | case1 => rfl
  | case2 k e expected ih => rw [rewriteFrom_cons_cons, ih]; rfl
  | case3 k a actual ih => rw [rewriteFrom_nil, ih]
  | case4 k expected a actual ih => rw [rewriteFrom_cons_of_lt (fun d hd => le_line hd), ih]
  | case5 k e expected a actual hne ih => rw [rewriteFrom_cons_cons, ih]; rfl

end

/-- Differences are exact for the lines `E` that were expected and the actual lines `A` if they
are sorted, are those of the positions with different lines, and turn the first lines into the
second. -/
structure Exact (E A : List String) (ds : List Difference) : Prop where
  sorted : ds.Pairwise (·.line < ·.line)
  mem_iff : ∀ d, d ∈ ds ↔ ∃ j < max E.length A.length, d.line = j + 1 ∧
    d.expected? = E[j]? ∧ d.actual? = A[j]? ∧ E[j]? ≠ A[j]?
  eq_nil_iff : ds = [] ↔ E = A
  rewrite_eq : rewriteFrom 1 ds E = A
  present : ∀ d ∈ ds, d.expected? ≠ none ∨ d.actual? ≠ none

theorem exact_differencesFrom (E A : List String) : Exact E A (differencesFrom 1 E A) where
  sorted := pairwise_differencesFrom 1 E A
  mem_iff d := by
    rw [mem_differencesFrom_iff]
    constructor
    · rintro ⟨j, rfl, hne⟩
      refine ⟨j, ?_, Nat.add_comm 1 j, rfl, rfl, hne⟩
      by_contra hle
      rw [not_lt, max_le_iff] at hle
      rw [List.getElem?_eq_none hle.1, List.getElem?_eq_none hle.2] at hne
      exact hne rfl
    · rintro ⟨j, -, hline, hexpected, hactual, hne⟩
      refine ⟨j, ?_, hne⟩
      rw [← hexpected, ← hactual, Nat.add_comm 1 j, ← hline]
  eq_nil_iff := differencesFrom_eq_nil_iff 1 E A
  rewrite_eq := rewriteFrom_differencesFrom 1 E A
  present d hd := by
    obtain ⟨j, rfl, hne⟩ := mem_differencesFrom_iff.mp hd
    by_contra hnone
    rw [not_or, not_ne_iff, not_ne_iff] at hnone
    exact hne (hnone.1.trans hnone.2.symm)

/-- The check of an expected text and some solutions is exact for their tidy lines. -/
theorem differences_exact (expected : String) (solutions : List String) :
    Exact (tidyLines expected) (solutions.flatMap tidyLines) (differences expected solutions) := by
  have hlines : contentLines = tidyLines := funext contentLines_eq_tidyLines
  rw [differences, hlines]
  exact exact_differencesFrom _ _

/-- Blank lines do not count, neither in the expected text nor within a solution. -/
example : differences "1  2\n \n3\n4\n" ["1 2\n\n3", "\t5 "] =
    [⟨3, some "4", some "5"⟩] := by cbv

end Annealing.Solving
