import Annealing.Proofs.Knapsack.Grammar
import Annealing.Proofs.Satisfiability.Reading
import Annealing.Solving.Report

/-!
# The kind of a text

The kind of a text is told from the first characters of its lines. It is the
kind of the format that the text has: no line of a knapsack text begins with
`p`, since no numeral does, and no satisfiability text has a block without a
line that begins with `p`. So leaving the kind to the text gives the result
that naming it gives.
-/
namespace Annealing.Solving

open Text

variable {text : String}

/-- The first word of a line begins with this letter. -/
def Begins (c : Char) (line : List Char) : Prop := (words line).head?.bind List.head? = some c

theorem hasHeader_iff :
    Choice.hasHeader text = true ↔ ∃ l ∈ lines text.toList, Begins 'p' l := by
  simp only [Choice.hasHeader, List.any_eq_true, beq_iff_eq, head?_trimStart, Begins]

theorem resolve_auto_of_begins {l : List Char} (hl : l ∈ lines text.toList) (hp : Begins 'p' l) :
    Choice.auto.resolve text = .satisfiability := if_pos (hasHeader_iff.mpr ⟨l, hl, hp⟩)

theorem resolve_auto_of_not_begins (h : ∀ l ∈ lines text.toList, ¬ Begins 'p' l) :
    Choice.auto.resolve text = .knapsack := by
  apply if_neg
  rw [hasHeader_iff]
  rintro ⟨l, hl, hp⟩
  exact h l hl hp

/-! ## Knapsack texts -/

theorem not_begins_of_parseLine {l : List Char} {i : Knapsack.Instance}
    (h : Knapsack.parseLine l = .ok i) : ¬ Begins 'p' l := by
  obtain ⟨count, rest, hgrammar, -⟩ := Knapsack.grammar_of_parseLine h
  obtain ⟨w, ws, hid, -, hwords⟩ := List.forall₂_cons_right_iff.mp hgrammar.numerals
  intro hp
  rw [Begins, hwords] at hp
  cases w with
  | nil => cases hp
  | cons c cs =>
    cases hp
    exact absurd hid.head (by decide)

theorem not_begins_of_knapsack {is : List Knapsack.Instance} (h : Knapsack.parse text = .ok is)
    {l : List Char} (hl : l ∈ lines text.toList) : ¬ Begins 'p' l := by
  by_cases hblank : l.all isBlank = true
  · rw [Begins, words_eq_nil_iff.mpr hblank]
    simp
  · have hmem : l ∈ nonBlank (lines text.toList) :=
      List.mem_filter.mpr ⟨hl, by simpa using hblank⟩
    obtain ⟨i, -, hi⟩ := exists_of_mapM (mapM_eq_ok_iff.mpr (Knapsack.parse_eq_ok_iff.mp h)) hmem
    exact not_begins_of_parseLine hi

/-! ## Satisfiability texts -/

theorem begins_of_ofHeader {number : Nat} {line : List Char} {b : Satisfiability.Block}
    (h : Satisfiability.Block.ofHeader number line = .ok b) : Begins 'p' line := by
  obtain ⟨terms, declared, count, rest, hwords, -⟩ := Satisfiability.Block.ofHeader_eq_ok_iff.mp h
  rw [Begins, hwords]
  rfl

/-- Without a header line nothing is read. -/
theorem foldlM_feed_of_not_begins {ls : List (List Char × Nat)} {r : Satisfiability.Reading}
    (hls : ∀ line ∈ ls, ¬ Begins 'p' line.1)
    (h : ls.foldlM Satisfiability.Reading.feed {} = .ok r) : r = {} := by
  induction ls with
  | nil =>
    cases h
    rfl
  | cons line ls ih =>
    obtain ⟨hline, hls⟩ := List.forall_mem_cons.mp hls
    rw [List.foldlM_cons] at h
    obtain ⟨r₁, hfeed, h⟩ := andThen_eq_ok_iff.mp h
    have hstart : r₁ = {} := by
      rcases Satisfiability.Reading.feed_cases hfeed with hclose | ⟨-, b, -, hheader, -⟩ |
        ⟨b, -, hcurrent, -⟩
      · cases hclose
        rfl
      · exact absurd (begins_of_ofHeader hheader) hline
      · cases hcurrent
    rw [hstart] at h
    exact ih hls h

theorem exists_begins_of_satisfiability {is : List Satisfiability.Instance}
    (h : Satisfiability.parse text = .ok is) (hne : is ≠ []) :
    ∃ l ∈ lines text.toList, Begins 'p' l := by
  obtain ⟨r₁, r₂, hfold, hclose, rfl⟩ := Satisfiability.parse_eq_ok_iff.mp h
  by_contra hnone
  apply hne
  have hr₁ : r₁ = {} := by
    refine foldlM_feed_of_not_begins ?_ hfold
    intro line hline hp
    -- The lines that are read are lines of the text without blanks at the ends.
    have hmem := List.fst_mem_of_mem_zipIdx ((List.takeWhile_sublist _).mem hline)
    obtain ⟨l, hl, htrim⟩ := List.mem_map.mp hmem
    rw [Begins, ← htrim, words_trim] at hp
    exact hnone ⟨l, hl, hp⟩
  rw [hr₁] at hclose
  cases hclose
  rfl

/-! ## The kind left to the text -/

theorem solveText_congr_choice {c d : Choice} (h : c.resolve text = d.resolve text) (o : Options)
    (s : Surroundings) (size : Float) : solveText { o with choice := c } s text size =
      solveText { o with choice := d } s text size := by
  have hsearches : searches { o with choice := c } s text =
      searches { o with choice := d } s text := by
    simp only [searches, h]
    rfl
  simp only [solveText, solve, hsearches]

/-- The kind of a text is that of the format it has, and no text has instances of both kinds.
So a text that has a format is solved the same way whether its kind is named or not. -/
theorem resolve_auto_agrees :
    (∀ text is, Knapsack.parse text = .ok is → Choice.auto.resolve text = .knapsack) ∧
    (∀ text is, Satisfiability.parse text = .ok is → is ≠ [] →
      Choice.auto.resolve text = .satisfiability) ∧
    (∀ text is js, Knapsack.parse text = .ok is → Satisfiability.parse text = .ok js →
      is = [] ∨ js = []) ∧
    (∀ text is, Knapsack.parse text = .ok is →
      ∀ (o : Options) (s : Surroundings) (size : Float),
        solveText { o with choice := .auto } s text size =
          solveText { o with choice := .knapsack } s text size) ∧
    ∀ text is, Satisfiability.parse text = .ok is → is ≠ [] →
      ∀ (o : Options) (s : Surroundings) (size : Float),
        solveText { o with choice := .auto } s text size =
          solveText { o with choice := .sat } s text size := by
  have hknapsack : ∀ text is, Knapsack.parse text = .ok is →
      Choice.auto.resolve text = .knapsack := fun _ _ h =>
    resolve_auto_of_not_begins fun _ hl => not_begins_of_knapsack h hl
  have hsatisfiability : ∀ text is, Satisfiability.parse text = .ok is → is ≠ [] →
      Choice.auto.resolve text = .satisfiability := by
    intro text is h hne
    obtain ⟨l, hl, hp⟩ := exists_begins_of_satisfiability h hne
    exact resolve_auto_of_begins hl hp
  refine ⟨hknapsack, hsatisfiability, ?_, fun text is h => solveText_congr_choice (hknapsack _ _ h),
    fun text is h hne => solveText_congr_choice (hsatisfiability _ _ h hne)⟩
  intro text is js his hjs
  by_contra! hne
  have hkind := (hknapsack text is his).symm.trans (hsatisfiability text js hjs hne.2)
  cases hkind

theorem resolve_auto_agrees_oneOfEach :
    Knapsack.parse "1 1 5 2 3" = .ok [⟨1, 5, #[⟨2, 3⟩]⟩] ∧
      Choice.auto.resolve "1 1 5 2 3" = .knapsack ∧
      solveText { seed? := some 3 } {} "1 1 5 2 3" 0.0 =
        solveText { choice := .knapsack, seed? := some 3 } {} "1 1 5 2 3" 0.0 ∧
      Satisfiability.parse "c\n p cnf 1 1\n1 0" = .ok [⟨1, #[⟨"1", 1⟩], [[⟨0, false⟩]]⟩] ∧
      Choice.auto.resolve "c\n p cnf 1 1\n1 0" = .satisfiability ∧
      solveText { seed? := some 3 } {} "c\n p cnf 1 1\n1 0" 0.0 =
        solveText { choice := .sat, seed? := some 3 } {} "c\n p cnf 1 1\n1 0" 0.0 := by
  obtain ⟨hknapsack, hsatisfiability, -, hsolved, hsolved'⟩ := resolve_auto_agrees
  have his : Knapsack.parse "1 1 5 2 3" = .ok [⟨1, 5, #[⟨2, 3⟩]⟩] := by rfl
  have hjs : Satisfiability.parse "c\n p cnf 1 1\n1 0" =
      .ok [⟨1, #[⟨"1", 1⟩], [[⟨0, false⟩]]⟩] := by rfl
  have hne : [(⟨1, #[⟨"1", 1⟩], [[⟨0, false⟩]]⟩ : Satisfiability.Instance)] ≠ [] := by simp
  refine ⟨his, hknapsack _ _ his, ?_, hjs, hsatisfiability _ _ hjs hne, ?_⟩
  · exact hsolved _ _ his { seed? := some 3 } {} 0.0
  · exact hsolved' _ _ hjs hne { seed? := some 3 } {} 0.0

end Annealing.Solving
