import Annealing.Proofs.Satisfiability.Assignment
import Annealing.Proofs.Search.Guarantees
import Annealing.Proofs.Solving.Entries
import Annealing.Proofs.Text.Fields

/-!
# Satisfiability results as certificates

The result of an instance proves its own claim. Its lines are a header and the
values of all terms by number. A header with a weight says that every clause
has a literal that is true, and that the true terms weigh that much in exact
numbers. A header with the word `infeasible` says that the search has never
left its start: all terms are false, and that does not satisfy every clause.
-/
namespace Annealing.Satisfiability

open Solving Text Totals

/-- The lines of a result: a header and the value of every term. -/
def resultLines (header : String) {n : Nat} (values : Vector Bool n) : List String :=
  header :: List.ofFn fun k : Fin n => (k.val + 1).repr ++ " => " ++ bitField (values.get k)

/-- Whether the last word of the header of a result is `infeasible`. -/
def saysInfeasible (solution : String) : Bool :=
  (fields ' ' ((fields '\n' solution.toList).headD [])).getLast? == some "infeasible".toList

namespace Instance

/-- A result names values of the terms that satisfy every clause, and their weight. -/
def Solved (i : Instance) (solution : String) : Prop :=
  ∃ (weight : Nat) (values : Vector Bool i.terms.size),
    fields '\n' solution.toList =
      (resultLines (i.id.toNat.repr ++ " " ++ weight.repr) values).map String.toList ∧
      i.Models values ∧ chosen i.weight values = weight

/-- A result says that the instance was given up with all terms false, which does not
satisfy every clause. -/
def GivenUp (i : Instance) (solution : String) : Prop :=
  let values := Vector.replicate i.terms.size false
  fields '\n' solution.toList =
    (resultLines (i.id.toNat.repr ++ " " ++ "infeasible") values).map String.toList ∧
    ¬ i.Models values

/-- A result is what its header says. -/
def Certified (i : Instance) (solution : String) : Prop :=
  if saysInfeasible solution then i.GivenUp solution else i.Solved solution

end Instance

variable {i : Instance} {a : Assignment i.terms.size} {feasible : Bool}

/-- The last word of the header of a result. -/
def verdict (a : Assignment i.terms.size) (feasible : Bool) : String :=
  if feasible then a.weight.toNat.repr else "infeasible"

theorem not_mem_verdict {c : Char} (hc : c.isDigit = false) (hword : c ∉ "infeasible".toList) :
    c ∉ (verdict a feasible).toList := by
  cases feasible with
  | false => exact hword
  | true => exact not_mem_repr hc _

theorem formatResult_eq (hi : i.WellFormed) : formatResult i a feasible =
    String.intercalate "\n"
      (resultLines (i.id.toNat.repr ++ " " ++ verdict a feasible) a.values) := by
  have hvalues : (i.terms.toList.zip a.values.toList).map
      (fun x => x.1.name ++ " => " ++ bitField x.2) =
        List.ofFn fun k : Fin i.terms.size =>
          (k.val + 1).repr ++ " => " ++ bitField (a.values.get k) := by
    apply List.ext_getElem
    · simp
    · intro k hk hk'
      have hname := hi.named k (by simpa using hk')
      simp [hname]
      rfl
  unfold resultLines
  rw [← hvalues]
  rfl

theorem fields_formatResult (hi : i.WellFormed) (a : Assignment i.terms.size)
    (feasible : Bool) : fields '\n' (formatResult i a feasible).toList =
      (resultLines (i.id.toNat.repr ++ " " ++ verdict a feasible) a.values).map
        String.toList := by
  rw [formatResult_eq hi]
  apply fields_intercalate rfl (List.cons_ne_nil _ _)
  intro line hline
  have hrepr : ∀ n : Nat, '\n' ∉ n.repr.toList := not_mem_repr rfl
  rcases List.mem_cons.mp hline with rfl | hline
  · have hverdict : '\n' ∉ (verdict a feasible).toList := not_mem_verdict rfl (by decide)
    simp only [String.toList_append, List.mem_append, not_or]
    exact ⟨⟨hrepr _, by decide⟩, hverdict⟩
  · obtain ⟨k, rfl⟩ := (List.mem_ofFn' _ _).mp hline
    have hbit : '\n' ∉ (bitField (a.values.get k)).toList := by
      cases a.values.get k <;> decide
    simp only [String.toList_append, List.mem_append, not_or]
    exact ⟨⟨hrepr _, by decide⟩, hbit⟩

/-- The header tells whether the search was feasible. -/
theorem saysInfeasible_formatResult (hi : i.WellFormed) :
    saysInfeasible (formatResult i a feasible) = !feasible := by
  have hheader : fields ' ' (i.id.toNat.repr ++ " " ++ verdict a feasible).toList =
      [i.id.toNat.repr, verdict a feasible].map String.toList := by
    have hjoin : i.id.toNat.repr ++ " " ++ verdict a feasible =
        String.intercalate " " [i.id.toNat.repr, verdict a feasible] := by simp
    rw [hjoin]
    apply fields_intercalate rfl (List.cons_ne_nil _ _)
    intro word hword
    simp only [List.mem_cons, List.not_mem_nil, or_false] at hword
    rcases hword with rfl | rfl
    · exact not_mem_repr rfl _
    · exact not_mem_verdict rfl (by decide)
  unfold saysInfeasible
  rw [fields_formatResult hi a feasible, resultLines, List.map_cons, List.headD_cons, hheader]
  cases feasible with
  | false => simp [verdict]
  | true =>
    have hne : a.weight.toNat.repr.toList ≠ "infeasible".toList := by
      intro h
      exact not_mem_repr (c := 'i') rfl a.weight.toNat (h ▸ by decide)
    simpa [verdict] using hne

theorem Instance.certified_formatResult (hi : i.WellFormed) (ha : a.Faithful i)
    (htrue : feasible = true → i.Models a.values)
    (hfalse : feasible = false → a = .allFalse _ ∧ ¬ i.Models a.values) :
    i.Certified (formatResult i a feasible) := by
  unfold Certified
  rw [saysInfeasible_formatResult hi]
  have hfields := fields_formatResult hi a feasible
  cases feasible with
  | true => exact ⟨a.weight.toNat, a.values, hfields, htrue rfl, ha.symm⟩
  | false =>
    obtain ⟨rfl, hmodels⟩ := hfalse rfl
    exact ⟨hfields, hmodels⟩

/-- The best state of a search is faithful; it satisfies the instance if it is feasible,
and otherwise it is the start, which does not. -/
theorem Instance.WellFormed.found {t : Tape} {events : List (Event (Assignment i.terms.size))}
    {o : Outcome (Assignment i.terms.size)} (hi : i.WellFormed)
    (h : o.Found i.problem t events) : o.best.Faithful i ∧
      (o.feasible = true → i.Models o.best.values) ∧
      (o.feasible = false → o.best = .allFalse _ ∧ ¬ i.Models o.best.values) := by
  have hanswer : ∀ a, i.problem.feasible? a = some true ↔ i.Models a.values := by
    intro a
    change i.satisfied? a = some true ↔ _
    rw [hi.satisfied?_eq, Option.some.injEq, decide_eq_true_iff]
  refine ⟨h.inherit (fun _ t ha => ha.neighbor hi t) Assignment.Faithful.allFalse, ?_, ?_⟩
  · intro hf
    exact (hanswer _).mp (h.sound.best_feasible hf)
  · intro hf
    have hbest : o.best = .allFalse _ := (h.sound.of_infeasible hf).2.1
    refine ⟨hbest, ?_⟩
    intro hmodels
    rw [hbest] at hmodels
    have hfeasible := h.sound.feasible_iff.mpr (Or.inl ((hanswer _).mpr hmodels))
    rw [hf] at hfeasible
    cases hfeasible

theorem Instance.WellFormed.certified_entry {seed : UInt64} {e : Entry} (hi : i.WellFormed)
    (h : satisfiabilityEntry i seed = .ok e) :
    i.Certified e.solution ∧ saysInfeasible e.solution = !e.feasible := by
  obtain ⟨⟨o, log⟩, ho, rfl⟩ := map_eq_ok_iff.mp h
  obtain ⟨t, events, hfound⟩ := searchSized_found ho
  obtain ⟨hfaithful, htrue, hfalse⟩ := hi.found hfound
  exact ⟨certified_formatResult hi hfaithful htrue hfalse, saysInfeasible_formatResult hi⟩

/-- A report on a satisfiability text has a certificate for every instance, in order, and
counts those that say `infeasible`. -/
theorem solveText_satisfiability_certified {o : Options} {s : Surroundings} {text : String}
    {size : Float} {r : Report} (hkind : o.choice.resolve text = .satisfiability)
    (h : solveText o s text size = .ok r) :
    ∃ instances, parse text = .ok instances ∧
      List.Forall₂ Instance.Certified instances r.solutions ∧
      r.infeasible = r.solutions.countP saysInfeasible := by
  obtain ⟨instances, hparse, hsearches⟩ := searches_satisfiability hkind h
  have hentry : ∀ i ∈ instances, ∀ word e, satisfiabilityEntry i word = .ok e →
      i.Certified e.solution ∧ saysInfeasible e.solution = !e.feasible :=
    fun i hi word e he => (wellFormed_of_parse hparse hi).certified_entry he
  exact ⟨instances, hparse, solveText_forall₂ hsearches h hentry⟩

/-- Two terms of which exactly one has to be true. -/
def exactlyOne : Instance :=
  ⟨1, #[⟨"1", 1⟩, ⟨"2", 2⟩], [[⟨0, false⟩, ⟨1, false⟩], [⟨0, true⟩, ⟨1, true⟩]]⟩

/-- A clause that nothing satisfies. -/
def hopeless : Instance := ⟨2, #[⟨"1", 1⟩], [[]]⟩

/-- A text with both instances. -/
def twoBlocks : String := "p cnf 2 2\n1 2 0\n-1 -2 0\n\np cnf 1 1\n0\n"

theorem parse_twoBlocks : parse twoBlocks = .ok [exactlyOne, hopeless] := by rfl

theorem exists_entry_twoBlocks {n : Nat} (hi : i ∈ [exactlyOne, hopeless])
    (hvalid : (Settings.forSize i.problem.size).Valid)
    (hcount : (Settings.forSize i.problem.size).levelCount? = some n) (seed : UInt64) :
    ∃ e, satisfiabilityEntry i seed = .ok e := by
  have hanswered : ∀ a, (i.problem.feasible? a).isSome := by
    intro a
    change (i.satisfied? a).isSome
    rw [(wellFormed_of_parse parse_twoBlocks hi).satisfied?_eq]
    rfl
  obtain ⟨result, hresult⟩ := exists_searchSized hvalid hcount hanswered seed
  exact ⟨_, map_eq_ok_iff.mpr ⟨result, hresult, rfl⟩⟩

theorem solveText_satisfiability_certified_twoBlocks :
    ∃ r, solveText { seed? := some 3 } {} twoBlocks 0.0 = .ok r ∧
      List.Forall₂ Instance.Certified [exactlyOne, hopeless] r.solutions ∧
      r.infeasible = r.solutions.countP saysInfeasible := by
  have hkind : Choice.resolve .auto twoBlocks = .satisfiability := by decide
  have hsearches : searches { seed? := some 3 } {} twoBlocks =
      .ok [Thunk.mk fun _ => satisfiabilityEntry exactlyOne 3,
        Thunk.mk fun _ => satisfiabilityEntry hopeless 4] := by
    simp only [searches, hkind, parse_twoBlocks]
    rfl
  have hruns : ∀ run ∈ [Thunk.mk fun _ => satisfiabilityEntry exactlyOne 3,
      Thunk.mk fun _ => satisfiabilityEntry hopeless 4], ∃ e, run.get = .ok e := by
    intro run hrun
    simp only [List.mem_cons, List.not_mem_nil, or_false] at hrun
    rcases hrun with rfl | rfl
    · exact exists_entry_twoBlocks (n := 92) (by simp) (by decide +kernel) (by decide +kernel) 3
    · exact exists_entry_twoBlocks (n := 69) (by simp) (by decide +kernel) (by decide +kernel) 4
  obtain ⟨r, hr⟩ := exists_solveText rfl hsearches hruns 0.0
  obtain ⟨instances, hinstances, hcertified⟩ := solveText_satisfiability_certified hkind hr
  cases parse_twoBlocks.symm.trans hinstances
  exact ⟨r, hr, hcertified⟩

end Annealing.Satisfiability
