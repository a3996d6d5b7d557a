import Annealing.Batch.Job
import Mathlib

/-!
# Orders of jobs

The difficulties of jobs are compared in a total order of all binary64 data,
and their paths component by component. Both comparisons are transitive and
turn around with their arguments, and so do the two orders of jobs, which
compare difficulties first. A list whose members are pairwise different under
such a comparison is sorted in one way only, whatever order it comes in.
-/
namespace Annealing

open Std (TransCmp OrientedCmp TransOrd LawfulEqOrd)

instance : TransOrd Binary64 :=
  inferInstanceAs (TransCmp (compareOn Binary64.rank))

instance : LawfulEqOrd Binary64 where
  eq_of_compare h := Binary64.rank_injective (LawfulEqOrd.eq_of_compare h)

theorem Binary64.compare_eq_lt_iff {x y : Binary64} : compare x y = .lt ↔ x.rank < y.rank := by
  have hrank : compare x y = compare x.rank y.rank := rfl
  rw [hrank, compare_lt_iff_lt]

instance : TransOrd Component :=
  inferInstanceAs (TransCmp (compareLex (compareOn fun c : Component => c.key.1)
    (compareOn fun c => c.key.2)))

instance : TransOrd Path :=
  inferInstanceAs (TransCmp (compareOn Path.components))

namespace Sorting

section
variable {α : Type} (cmp : α → α → Ordering) [TransCmp cmp] {xs ys : List α}

theorem isLE_total (a b : α) : ((cmp a b).isLE || (cmp b a).isLE) = true := by
  rw [@OrientedCmp.eq_swap _ cmp _ b a]
  cases cmp a b <;> rfl

theorem pairwise_isLE (xs : List α) :
    (xs.mergeSort fun a b => (cmp a b).isLE).Pairwise fun a b => (cmp a b).isLE = true :=
  List.pairwise_mergeSort (fun _ _ _ => TransCmp.isLE_trans) (isLE_total cmp) xs

variable {cmp}

theorem ne_eq_symm {a b : α} (h : cmp a b ≠ .eq) : cmp b a ≠ .eq := by
  intro hba
  apply h
  rw [@OrientedCmp.eq_swap _ cmp, hba]
  rfl

theorem distinct_perm (distinct : xs.Pairwise fun a b => cmp a b ≠ .eq) (h : xs.Perm ys) :
    ys.Pairwise fun a b => cmp a b ≠ .eq :=
  h.pairwise distinct ne_eq_symm

/-- Pairwise different members leave only one sorted order. -/
theorem sort_eq_of_perm (distinct : xs.Pairwise fun a b => cmp a b ≠ .eq) (h : xs.Perm ys) :
    (xs.mergeSort fun a b => (cmp a b).isLE) = ys.mergeSort fun a b => (cmp a b).isLE := by
  have hperm : (xs.mergeSort fun a b => (cmp a b).isLE).Perm
      (ys.mergeSort fun a b => (cmp a b).isLE) :=
    (List.mergeSort_perm _ _).trans (h.trans (List.mergeSort_perm _ _).symm)
  refine hperm.eq_of_pairwise ?_ (pairwise_isLE cmp xs) (pairwise_isLE cmp ys)
  intro a b ha hb hab hba
  have ha' : a ∈ xs := List.mem_mergeSort.mp ha
  have hb' : b ∈ xs := h.mem_iff.mpr (List.mem_mergeSort.mp hb)
  by_contra hne
  have : Std.Symm fun a b => cmp a b ≠ .eq := ⟨fun _ _ => ne_eq_symm⟩
  exact distinct.forall ha' hb' hne (OrientedCmp.isLE_antisymm hab hba)

theorem pairwise_lt (distinct : xs.Pairwise fun a b => cmp a b ≠ .eq) :
    (xs.mergeSort fun a b => (cmp a b).isLE).Pairwise fun a b => cmp a b = .lt := by
  have hdistinct := distinct_perm distinct (List.mergeSort_perm xs fun a b => (cmp a b).isLE).symm
  refine ((pairwise_isLE cmp xs).and hdistinct).imp ?_
  intro a b h
  cases hab : cmp a b with
  | lt => rfl
  | eq => exact absurd hab h.2
  | gt => rw [hab] at h; exact absurd h.1 (by decide)

end
end Sorting

namespace Batch

instance : TransCmp Job.listOrder :=
  inferInstanceAs (TransCmp (compareLex (compareOn Job.difficulty) (compareOn Job.path)))

instance : TransCmp Job.startOrder :=
  haveI : TransCmp fun a b => compareOn Job.difficulty b a := TransCmp.opposite
  inferInstanceAs (TransCmp (compareLex (fun a b => compareOn Job.difficulty b a)
    (compareOn Job.path)))

instance : TransCmp fun r r' : JobReport => r.job.listOrder r'.job :=
  inferInstanceAs (TransCmp (compareLex (compareOn fun r : JobReport => r.job.difficulty)
    (compareOn fun r => r.job.path)))

theorem Job.startOrder_isLE_iff {a b : Job} : (a.startOrder b).isLE = true ↔
    b.difficulty.rank < a.difficulty.rank ∨
      a.difficulty = b.difficulty ∧ (compare a.path b.path).isLE = true := by
  rw [Job.startOrder, Ordering.isLE_then_iff_or, Binary64.compare_eq_lt_iff,
    Std.compare_eq_iff_eq, eq_comm]

theorem Job.rank_le_of_listOrder {a b : Job} (h : (a.listOrder b).isLE = true) :
    a.difficulty.rank ≤ b.difficulty.rank := by
  rw [Job.listOrder, Ordering.isLE_then_iff_or, Binary64.compare_eq_lt_iff,
    Std.compare_eq_iff_eq] at h
  rcases h with hlt | ⟨heq, -⟩
  · exact hlt.le
  · rw [heq]

theorem Job.listOrder_eq_lt_iff {a b : Job} : a.listOrder b = .lt ↔
    a.difficulty.rank < b.difficulty.rank ∨
      a.difficulty = b.difficulty ∧ compare a.path b.path = .lt := by
  rw [Job.listOrder, Ordering.then_eq_lt, Binary64.compare_eq_lt_iff, Std.compare_eq_iff_eq]

theorem schedule_perm (jobs : List Job) : (schedule jobs).Perm jobs := List.mergeSort_perm _ _

theorem pairwise_schedule (jobs : List Job) :
    (schedule jobs).Pairwise fun a b => (a.startOrder b).isLE = true :=
  Sorting.pairwise_isLE Job.startOrder jobs

end Batch
end Annealing
