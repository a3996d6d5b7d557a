import Annealing.Proofs.Solving.Entries
import Annealing.Proofs.Text.Spacing

/-!
# Solving texts that differ in spacing

The kind of a text is told from the first words of its lines. A knapsack line
is read word by word, and so is a satisfiability line, after a look at its
first character. So texts with the same words are read alike, with the same
defect on the same line if they have one, and are solved alike.
-/
namespace Annealing

open Text

variable {t u : String} {l m : List Char}

/-! ## Knapsack texts -/

namespace Knapsack

theorem parseLine_congr (h : words l = words m) : parseLine l = parseLine m := by
  simp only [parseLine, numbers, h]

theorem parse_congr (h : SameWords t u) : parse t = parse u := by
  apply mapM_congr_of_forall₂
  refine (forall₂_filter (forall₂_zipIdx h 1) ?_).imp ?_
  · rintro ⟨l, n⟩ ⟨m, k⟩ ⟨hwords, -⟩
    simp only [isEmpty_trim, hwords]
  · rintro ⟨l, n⟩ ⟨m, k⟩ ⟨hwords, rfl⟩
    simp only [parseLine_congr hwords]

end Knapsack

/-! ## Satisfiability texts -/

namespace Satisfiability

variable {b : Block} {r : Reading} {number : Nat}

theorem Block.ofHeader_congr (h : words l = words m) :
    ofHeader number l = ofHeader number m := by
  simp only [ofHeader, h]

theorem Block.readWeights_congr (h : words l = words m) : b.readWeights l = b.readWeights m := by
  simp only [readWeights, h]

theorem Block.readClause_congr (h : words l = words m) : b.readClause l = b.readClause m := by
  simp only [readClause, h]

/-- What a line that is not blank does depends on its first character, on the words of the
line, and on those behind that character. -/
theorem Reading.feed_cons (r : Reading) (c : Char) (cs : List Char) (number : Nat) :
    r.feed (c :: cs, number) =
      if c = 'c' then r.close
      else if c = 'p' then r.close.bind fun r =>
        ((Block.ofHeader number (c :: cs)).mapError (Located.mk number)).bind fun b =>
          .ok { r with current? := some b }
      else match r.current? with
        | none => .error ⟨number, .outsideBlock⟩
        | some b =>
          ((if c = 'v' then b.readWeights cs else b.readClause (c :: cs)).mapError
            (Located.mk number)).bind fun b => .ok { r with current? := some b } := by
  unfold feed
  split
  case h_1 heq => cases heq
  case h_2 heq =>
    cases heq
    rfl
  case h_3 heq =>
    cases heq
    rfl
  case h_4 _ hc hp =>
    have hletters : c ≠ 'c' ∧ c ≠ 'p' := by
      refine ⟨?_, ?_⟩ <;> rintro rfl
      · exact hc cs rfl
      · exact hp cs rfl
    rw [if_neg hletters.1, if_neg hletters.2]
    cases r.current? with
    | none => rfl
    | some b =>
      by_cases hv : c = 'v'
      · subst hv
        rfl
      · simp only [if_neg hv]
        split
        case h_1 heq => exact absurd (List.cons.inj heq).1 hv
        case h_2 => rfl

theorem Reading.feed_congr (h : words l = words m) (number : Nat) :
    r.feed (trim l, number) = r.feed (trim m, number) := by
  obtain ⟨hl, hm⟩ | ⟨c, x, y, hl, hm, hline, hrest⟩ := trim_cases h
  · rw [hl, hm]
  · rw [hl, hm, feed_cons, feed_cons, Block.ofHeader_congr hline]
    simp only [Block.readWeights_congr hrest, Block.readClause_congr hline]

theorem parse_congr (h : SameWords t u) : parse t = parse u := by
  have hlines : (contentLines t.toList).foldlM Reading.feed {} =
      (contentLines u.toList).foldlM Reading.feed {} := by
    apply foldlM_congr_of_forall₂
    have htrimmed : List.Forall₂ (fun x y => x.head? = y.head? ∧
        ∀ r number, Reading.feed r (x, number) = r.feed (y, number))
        ((lines t.toList).map trim) ((lines u.toList).map trim) := by
      rw [List.forall₂_map_left_iff, List.forall₂_map_right_iff]
      apply List.Forall₂.imp _ h
      intro l m hwords
      exact ⟨by rw [head?_trim, head?_trim, hwords], fun _ => Reading.feed_congr hwords⟩
    refine (forall₂_takeWhile (forall₂_zipIdx htrimmed 1) ?_).imp ?_
    · rintro ⟨x, n⟩ ⟨y, k⟩ ⟨⟨hhead, -⟩, -⟩
      simp only [hhead]
    · rintro ⟨x, n⟩ ⟨y, k⟩ ⟨⟨-, hfeed⟩, rfl⟩ r
      exact hfeed r n
  simp only [parse, hlines]

end Satisfiability

/-! ## Texts of either kind -/

namespace Solving

theorem hasHeader_congr (h : SameWords t u) : Choice.hasHeader t = Choice.hasHeader u := by
  apply any_eq_of_forall₂ h
  intro l m hwords
  rw [head?_trimStart, head?_trimStart, hwords]

theorem resolve_congr (choice : Choice) (h : SameWords t u) :
    choice.resolve t = choice.resolve u := by
  simp only [Choice.resolve, hasHeader_congr h]

theorem searches_congr (h : SameWords t u) (o : Options) (s : Surroundings) :
    searches o s t = searches o s u := by
  simp only [searches, resolve_congr o.choice h, Knapsack.parse_congr h,
    Satisfiability.parse_congr h]

/-- Texts with the same words have the same kind and are solved alike. If a base seed is given
and nothing is measured, nothing else counts. -/
theorem solveText_spacing (h : SameWords t u) :
    (∀ choice : Choice, choice.resolve t = choice.resolve u) ∧
    (∀ o s size, solveText o s t size = solveText o s u size) ∧
    ∀ o base s s' size size', o.measuring = false → o.seed? = some base →
      solveText o s t size = solveText o s' u size' := by
  have hsame : ∀ o s size, solveText o s t size = solveText o s u size := by
    intro o s size
    rw [solveText_eq, solveText_eq, searches_congr h]
  refine ⟨fun choice => resolve_congr choice h, hsame, ?_⟩
  intro o base s s' size size' hmeasuring hseed
  rw [hsame, solveText_unmeasured hmeasuring, solveText_unmeasured hmeasuring,
    searches_congr_seed (seed_eq_of_base hseed s s') u]

/-- A block with spaces and newlines only. -/
def plainBlock : String := "p cnf 1 1\n1 0\n\n"

/-- The same block with tabs, wide spaces and carriage returns. -/
def spacedBlock : String := "\u3000p\tcnf 1 1 \r\n\r1  0\r\n\u00a0"

theorem solveText_spacing_spacedBlock :
    SameWords plainBlock spacedBlock ∧
      Choice.auto.resolve plainBlock = Choice.auto.resolve spacedBlock ∧
      solveText { measuring := true } {} plainBlock 20.0 =
        solveText { measuring := true } {} spacedBlock 20.0 ∧
      solveText { seed? := some 3 } {} plainBlock 0.0 =
        solveText { seed? := some 3 } { clock := id } spacedBlock 20.0 := by
  have h : SameWords plainBlock spacedBlock := by decide +kernel
  obtain ⟨hkind, hsame, hseeded⟩ := solveText_spacing h
  exact ⟨h, hkind .auto, hsame _ _ _, hseeded { seed? := some 3 } 3 _ _ _ _ rfl rfl⟩

end Solving
end Annealing
