import Annealing.Proofs.Decimal.Differences
import Annealing.Proofs.Satisfiability.Certificate
import Annealing.Proofs.Search.Levels
import Annealing.Proofs.Search.Proposals

/-!
# Leaving the start of a satisfiability search

A search starts without true terms, and an assignment that falsifies a clause
is never accepted. So a start that falsifies one is left only by a term that
satisfies all clauses on its own, as soon as its index is drawn. The start
weighs nothing, so that the move is then accepted at every temperature. An
instance whose clauses need two true terms is never solved.
-/
namespace Annealing.Satisfiability

variable {i : Instance}

/-- The values of `n` terms of which one is true. -/
def single {n : Nat} (k : Fin n) : Vector Bool n := Vector.ofFn fun j => decide (j = k)

theorem Assignment.values_toggle_allFalse {n : Nat} (k : Fin n) (term : Term) :
    ((Assignment.allFalse n).toggle k term).values = single k := by
  have hvalue : (Assignment.allFalse n).value k = false := by simp [value, allFalse, Vector.get]
  rw [toggle, set, if_neg (by simp [hvalue]), hvalue]
  ext j hj
  simp [allFalse, single, Vector.getElem_set, Fin.ext_iff, eq_comm]

/-- Nothing is lost by leaving the start, whatever the weights are. -/
theorem Assignment.merit_allFalse_sub_le {n : Nat} (a : Assignment n) :
    (Assignment.allFalse n).merit - a.merit ≤ 0.0 := by
  have hmerit : (Assignment.allFalse n).merit = UInt64.toFloat 0 := rfl
  rw [hmerit, merit]
  exact Magnitude.toFloat_zero_sub_le a.weight

/-- The proposal after `j` others draws the index of a term. -/
def Instance.Draws (i : Instance) (s : Settings) (t : Tape) (j : Nat) (k : Fin i.terms.size) :
    Prop :=
  ∃ w, i.problem.walk s t j = .ok w ∧ (w.tape.nextIndex i.terms.size k.pos).1 = k

/-- A neighbour of the start is satisfied if it has the only term that is needed. -/
theorem Instance.WellFormed.feasible?_neighbor_iff (hi : i.WellFormed) (t : Tape) :
    i.problem.feasible? (i.problem.neighbor (.allFalse _) t).1 = some true ↔
      (i.terms.size = 0 ∧ i.Models (Vector.replicate i.terms.size false)) ∨
        ∃ k, i.Models (single k) ∧ (t.nextIndex i.terms.size k.pos).1 = k := by
  change i.satisfied? (i.neighbor _ t).1 = some true ↔ _
  rw [hi.satisfied?_eq, Option.some.injEq, decide_eq_true_iff, Instance.neighbor]
  split
  case isTrue hpos =>
    rw [Assignment.values_toggle_allFalse]
    constructor
    · intro h
      exact .inr ⟨_, h, rfl⟩
    · rintro (⟨hnone, -⟩ | ⟨k, hk, hdrawn⟩)
      · exact absurd hnone hpos.ne'
      · rwa [hdrawn]
  case isFalse hnone =>
    constructor
    · intro h
      exact .inl ⟨Nat.eq_zero_of_not_pos hnone, h⟩
    · rintro (⟨-, h⟩ | ⟨k, -, -⟩)
      · exact h
      · exact absurd k.pos hnone

/-- A search of an instance that was read is feasible if its start is, or if it draws a term
that is enough. -/
theorem Instance.WellFormed.feasible_iff_of_walk (hi : i.WellFormed) {s : Settings} {t : Tape}
    {w : Walk (Assignment i.terms.size)} {n : Nat} (h : i.problem.walk s t n = .ok w) :
    w.feasible = true ↔ i.Models (Vector.replicate i.terms.size false) ∨
      ∃ k, i.Models (single k) ∧ ∃ j < n, i.Draws s t j k := by
  have hcost : ∀ u, i.problem.objective (i.problem.start t).1 -
      i.problem.objective (i.problem.neighbor (i.problem.start t).1 u).1 ≤ 0.0 :=
    fun u => Assignment.merit_allFalse_sub_le (i.neighbor (.allFalse _) u).1
  have hiff := (Walk.feasible_iff_of_walk hcost h).2
  have hstart : i.problem.feasible? (.allFalse _) = some true ↔
      i.Models (Vector.replicate i.terms.size false) := by
    change i.satisfied? _ = some true ↔ _
    rw [hi.satisfied?_eq, Option.some.injEq, decide_eq_true_iff]
    rfl
  have hstate : (i.problem.start t).1 = .allFalse _ := rfl
  rw [hiff, hstate, hstart]
  simp only [hi.feasible?_neighbor_iff]
  constructor
  · rintro (hnone | ⟨j, hj, w, hw, ⟨-, hnone⟩ | ⟨k, hk, hdrawn⟩⟩)
    · exact .inl hnone
    · exact .inl hnone
    · exact .inr ⟨k, hk, j, hj, w, hw, hdrawn⟩
  · rintro (hnone | ⟨k, hk, j, hj, w, hw, hdrawn⟩)
    · exact .inl hnone
    · exact .inr ⟨j, hj, w, hw, .inr ⟨k, hk, hdrawn⟩⟩

/-- The outcome of a search is that of a row of proposals. It is feasible if no true term is
needed, or if one is enough and its index was drawn; if neither none nor one is enough, the
search has stayed at its start. -/
theorem tracedSearch_feasible_iff {text : String} {instances : List Instance}
    (hparse : parse text = .ok instances) (hi : i ∈ instances) {s : Settings} {t t' : Tape}
    {o : Outcome (Assignment i.terms.size)} {events : List (Event (Assignment i.terms.size))}
    (h : tracedSearch i.problem s t = (.ok (o, events), t')) :
    (∃ w, i.problem.walk s t o.proposals = .ok w ∧
      o = .ofWalk o.levels o.finalTemperature w ∧ t' = w.tape) ∧
    (o.feasible = true ↔ i.Models (Vector.replicate i.terms.size false) ∨
      ∃ k, i.Models (single k) ∧ ∃ j < o.proposals, i.Draws s t j k) ∧
    (¬ i.Models (Vector.replicate i.terms.size false) → (∀ k : Fin i.terms.size, ¬ i.Models (single k)) →
      o.feasible = false ∧ o.accepted = 0 ∧ o.best = .allFalse _ ∧
        acceptedStates events = []) := by
  have hwalk := walk_of_tracedSearch h
  have hiff : o.feasible = true ↔ i.Models (Vector.replicate i.terms.size false) ∨
      ∃ k, i.Models (single k) ∧ ∃ j < o.proposals, i.Draws s t j k := by
    obtain ⟨w, hw, ho, -⟩ := hwalk
    have hfeasible : o.feasible = w.feasible := congrArg Outcome.feasible ho
    rw [hfeasible]
    exact (wellFormed_of_parse hparse hi).feasible_iff_of_walk hw
  refine ⟨hwalk, hiff, ?_⟩
  intro hnone hone
  have hinfeasible : o.feasible = false := by
    rw [← Bool.not_eq_true, hiff]
    rintro (hmodels | ⟨k, hk, -⟩)
    · exact hnone hmodels
    · exact hone k hk
  have hsound := (found_of_tracedSearch h).sound
  obtain ⟨haccepted, hbest, -⟩ := hsound.of_infeasible hinfeasible
  refine ⟨hinfeasible, haccepted, hbest, ?_⟩
  by_contra hmoves
  exact absurd (hsound.feasible_iff.mpr (.inr hmoves)) (by simp [hinfeasible])

/-- Two terms that both have to be true. -/
def bothNeeded : Instance :=
  ⟨2, #[⟨"1", 1⟩, ⟨"2", 2⟩], [[⟨0, false⟩], [⟨1, false⟩]]⟩

/-- A text of an instance for which each of two terms is enough, and one that needs both. -/
def oneAndBoth : String := "p cnf 2 2\n1 2 0\n-1 -2 0\n\np cnf 2 2\n1 0\n2 0\n"

theorem tracedSearch_feasible_iff_oneAndBoth :
    parse oneAndBoth = .ok [exactlyOne, bothNeeded] ∧
    (∃ o events t', tracedSearch exactlyOne.problem oneLevel (.cyclic #[]) =
      (.ok (o, events), t') ∧ o.feasible = true) ∧
    (∃ o events t', tracedSearch bothNeeded.problem oneLevel (.cyclic #[]) =
      (.ok (o, events), t') ∧ o.feasible = false ∧ o.accepted = 0 ∧ o.best = .allFalse _) ∧
    bothNeeded.Models #v[true, true] := by
  have hparse : parse oneAndBoth = .ok [exactlyOne, bothNeeded] := by rfl
  have hvalid : oneLevel.Valid := by decide +kernel
  have hcount : oneLevel.levelCount? = some 1 := by decide +kernel
  have hanswered : ∀ {i}, i ∈ [exactlyOne, bothNeeded] → ∀ a, (i.problem.feasible? a).isSome := by
    intro i hi a
    change (i.satisfied? a).isSome
    rw [(wellFormed_of_parse hparse hi).satisfied?_eq]
    rfl
  refine ⟨hparse, ?_, ?_, by decide⟩
  · have hi : exactlyOne ∈ [exactlyOne, bothNeeded] := by simp
    obtain ⟨o, events, t', hrun⟩ :=
      tracedSearch_ok (t := .cyclic #[]) hvalid hcount (hanswered hi)
    obtain ⟨-, hiff, -⟩ := tracedSearch_feasible_iff hparse hi hrun
    refine ⟨o, events, t', hrun, hiff.mpr (.inr ?_)⟩
    obtain ⟨w, hw⟩ := Walk.start_ok (hanswered hi) (.cyclic #[])
    have henough : ∀ k : Fin 2, exactlyOne.Models (single k) := by decide
    refine ⟨(w.tape.nextIndex 2 (by decide)).1, henough _, 0, ?_, w, hw, rfl⟩
    obtain ⟨levels, hrecounts⟩ := tracedSearch_recounts hrun
    have hlevels : o.levels ≠ 0 := by
      intro hnone
      have hfrozen := hrecounts.frozen
      rw [hrecounts.final_eq, hnone] at hfrozen
      exact absurd hfrozen (by decide +kernel)
    rw [hrecounts.proposals_eq]
    exact Nat.mul_pos (Nat.pos_of_ne_zero hlevels) (by decide)
  · have hi : bothNeeded ∈ [exactlyOne, bothNeeded] := by simp
    obtain ⟨o, events, t', hrun⟩ :=
      tracedSearch_ok (t := .cyclic #[]) hvalid hcount (hanswered hi)
    obtain ⟨-, -, hstays⟩ := tracedSearch_feasible_iff hparse hi hrun
    obtain ⟨hinfeasible, haccepted, hbest, -⟩ := hstays (by decide) (by decide)
    exact ⟨o, events, t', hrun, hinfeasible, haccepted, hbest⟩

end Annealing.Satisfiability
