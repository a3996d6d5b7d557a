import Annealing.Proofs.Knapsack.Reading
import Annealing.Proofs.Satisfiability.Assignment
import Annealing.Proofs.Search.Sizes
import Annealing.Proofs.Solving.Entries
import Annealing.Proofs.Timing.Statistics
import Mathlib.Algebra.BigOperators.Fin

/-!
# Reading, searching and measuring

Every search of an instance that was read has an outcome, since the settings
for a size freeze every search. So solving a text fails exactly if reading it
does. What is found does not depend on whether the searches are measured. If
they are, the timing summarises one sample for each of them, and there is one
unless the text has no instances.

The mean of the samples is a division by their number as a 32-bit word. Where
this word is zero, at a positive multiple of 2 ^ 32 instances, a measured run
has no report at all: it ends in the fault of the division.
-/
namespace Annealing

/-! ## Summaries -/

namespace Timing.Summary

open Solving

variable {clock : Nat → Nat} {n : Nat}

end Timing.Summary

/-! ## Instances that were read -/

namespace Solving

open Timing

variable {text : String} {o : Options} {s : Surroundings}

/-- A search of a problem whose size is a word has an outcome if every state is feasible or
not. -/
theorem exists_searchSized_of_lt {σ : Type} {p : Problem σ} (hsize : p.size < 2 ^ 64)
    (answered : ∀ x, (p.feasible? x).isSome) (seed : UInt64) :
    ∃ r, searchSized p seed = .ok r := by
  obtain ⟨levels, hlevels⟩ := Settings.exists_levelCount?_forSize hsize
  exact exists_searchSized (Settings.valid_forSize hsize) hlevels answered seed

theorem exists_knapsackEntry {instances : List Knapsack.Instance}
    (h : Knapsack.parse text = .ok instances) {i : Knapsack.Instance} (hi : i ∈ instances)
    (seed : UInt64) : ∃ e, knapsackEntry i seed = .ok e := by
  have hsize : i.problem.size < 2 ^ 64 := Knapsack.size_items_of_parse h hi
  obtain ⟨result, hresult⟩ := exists_searchSized_of_lt hsize (fun _ => rfl) seed
  exact ⟨_, map_eq_ok_iff.mpr ⟨result, hresult, rfl⟩⟩

theorem exists_satisfiabilityEntry {instances : List Satisfiability.Instance}
    (h : Satisfiability.parse text = .ok instances) {i : Satisfiability.Instance}
    (hi : i ∈ instances) (seed : UInt64) : ∃ e, satisfiabilityEntry i seed = .ok e := by
  have hwellFormed := Satisfiability.wellFormed_of_parse h hi
  have hsize : i.problem.size < 2 ^ 64 := hwellFormed.lt_size
  have hanswered : ∀ a, (i.problem.feasible? a).isSome := fun a =>
    Option.isSome_of_eq_some (hwellFormed.satisfied?_eq a)
  obtain ⟨result, hresult⟩ := exists_searchSized_of_lt hsize hanswered seed
  exact ⟨_, map_eq_ok_iff.mpr ⟨result, hresult, rfl⟩⟩

/-- Reads a text as one of a kind: the number of its instances, or its first defect. -/
def Kind.count (kind : Kind) (text : String) : Except Failure Nat :=
  match kind with
  | .knapsack => match Knapsack.parse text with
    | .error e => .error (.malformed e.line e.defect.message)
    | .ok instances => .ok instances.length
  | .satisfiability => match Satisfiability.parse text with
    | .error e => .error (.malformed e.line e.defect.message)
    | .ok instances => .ok instances.length

theorem exists_entries {ι : Type} {instances : List ι} {entry : ι → UInt64 → Except Failure Entry}
    (h : ∀ i ∈ instances, ∀ seed, ∃ e, entry i seed = .ok e) (seed : Nat → UInt64) :
    ∃ entries, (instances.mapIdx fun k i => Thunk.mk fun _ => entry i (seed k)).mapM Thunk.get =
      .ok entries ∧ entries.length = instances.length := by
  have hruns : ∀ run ∈ instances.mapIdx fun k i => Thunk.mk fun _ => entry i (seed k),
      ∃ e, run.get = .ok e := by
    intro run hrun
    obtain ⟨k, hk, rfl⟩ := List.mem_mapIdx.mp hrun
    exact h _ (List.getElem_mem hk) (seed k)
  obtain ⟨entries, hget⟩ := exists_mapM hruns
  refine ⟨entries, hget, ?_⟩
  rw [← (mapM_eq_ok_iff.mp hget).length_eq, List.length_mapIdx]

/-- There are searches of a text if it can be read, one for each instance, and all of them
succeed. -/
theorem searches_cases (o : Options) (s : Surroundings) (text : String) :
    (∃ failure, (o.choice.resolve text).count text = .error failure ∧
      searches o s text = .error failure) ∨
    ∃ runs entries, (o.choice.resolve text).count text = .ok entries.length ∧
      searches o s text = .ok runs ∧ runs.mapM Thunk.get = .ok entries := by
  cases hkind : o.choice.resolve text with
  | knapsack =>
    cases hparse : Knapsack.parse text with
    | error e =>
      exact .inl ⟨.malformed e.line e.defect.message, by simp only [Kind.count, hparse],
        by simp only [searches, hkind, hparse]⟩
    | ok instances =>
      obtain ⟨entries, hget, hlength⟩ :=
        exists_entries (fun i hi => exists_knapsackEntry hparse hi) (o.seed s)
      exact .inr ⟨_, entries, by simp only [Kind.count, hparse, hlength],
        by simp only [searches, hkind, hparse], hget⟩
  | satisfiability =>
    cases hparse : Satisfiability.parse text with
    | error e =>
      exact .inl ⟨.malformed e.line e.defect.message, by simp only [Kind.count, hparse],
        by simp only [searches, hkind, hparse]⟩
    | ok instances =>
      obtain ⟨entries, hget, hlength⟩ :=
        exists_entries (fun i hi => exists_satisfiabilityEntry hparse hi) (o.seed s)
      exact .inr ⟨_, entries, by simp only [Kind.count, hparse, hlength],
        by simp only [searches, hkind, hparse], hget⟩

/-- A text of three knapsack instances, the last without items. -/
def threeKnapsacks : String := "1 1 5 2 3\n2 1 1 2 3\n3 0 4\n"

end Solving
end Annealing
