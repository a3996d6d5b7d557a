import Annealing.Proofs.Batch.Orders

/-!
# Laws of the orders of jobs

Both orders of jobs are total: any two jobs compare, all data of a difficulty
included, and compare equal only with the same bits of difficulty and the same
components of path. So sorting by them is determined. A sorted list in which
members that compare equal come as they came before is the only one of that
kind, and sorting it again, or sorting another order of pairwise different
members, gives it once more.
-/
namespace Annealing

open Std (TransCmp OrientedCmp LawfulEqCmp LawfulEqOrd)

/-! ## Keys of jobs -/

namespace Binary64

/-- The bits of a datum without its sign. -/
def magnitude (x : Binary64) : Nat := x.bits.toNat % 2 ^ 63

/-- The total order of all data: negative ones come before the others, and the greater their
magnitude the earlier. -/
def Precedes (x y : Binary64) : Prop :=
  match x.isNegative, y.isNegative with
  | true, false => True
  | false, true => False
  | false, false => x.magnitude < y.magnitude
  | true, true => y.magnitude < x.magnitude

theorem magnitude_lt (x : Binary64) : x.magnitude < 2 ^ 63 := Nat.mod_lt _ (by norm_num)

theorem rank_of_negative {x : Binary64} (h : x.isNegative = true) :
    x.rank = 2 ^ 63 - 1 - x.magnitude := by
  have hlt := x.bits.toNat_lt
  have hge : 0x8000000000000000 ≤ x.bits.toNat := by
    simpa [isNegative, UInt64.le_iff_toNat_le] using h
  rw [rank, if_pos h, magnitude]
  omega

theorem rank_of_not_negative {x : Binary64} (h : x.isNegative = false) :
    x.rank = 2 ^ 63 + x.magnitude := by
  have hlt : x.bits.toNat < 0x8000000000000000 := by
    simpa [isNegative, UInt64.le_iff_toNat_le] using h
  have hmagnitude : x.magnitude = x.bits.toNat := Nat.mod_eq_of_lt hlt
  rw [rank, h, hmagnitude]
  rfl

theorem compare_eq_lt_iff_precedes {x y : Binary64} : compare x y = .lt ↔ x.Precedes y := by
  have hx := x.magnitude_lt
  have hy := y.magnitude_lt
  rw [compare_eq_lt_iff, Precedes]
  cases hsx : x.isNegative with
  | false =>
    cases hsy : y.isNegative with
    | false =>
      rw [rank_of_not_negative hsx, rank_of_not_negative hsy]
      omega
    | true =>
      rw [rank_of_not_negative hsx, rank_of_negative hsy, iff_false]
      omega
  | true =>
    cases hsy : y.isNegative with
    | false =>
      rw [rank_of_negative hsx, rank_of_not_negative hsy, iff_true]
      omega
    | true =>
      rw [rank_of_negative hsx, rank_of_negative hsy]
      omega

theorem compare_eq_iff {x y : Binary64} : compare x y = .eq ↔ x.bits = y.bits := by
  rw [Std.compare_eq_iff_eq, ← Binary64.mk.injEq]

end Binary64

namespace Component

theorem key_injective {c d : Component} (h : c.key = d.key) : c = d := by
  cases c <;> cases d <;> simp_all [key]

instance : LawfulEqOrd Component where
  eq_of_compare {c d} h := by
    obtain ⟨hkind, htext⟩ := Ordering.then_eq_eq.mp h
    exact key_injective
      (Prod.ext (LawfulEqOrd.eq_of_compare hkind) (LawfulEqOrd.eq_of_compare htext))

end Component

theorem compareLex_eq_lt_iff {α : Type} {cmp : α → α → Ordering} [LawfulEqCmp cmp]
    (xs ys : List α) :
    List.compareLex cmp xs ys = .lt ↔ List.Lex (fun a b => cmp a b = .lt) xs ys := by
  induction xs generalizing ys with
  | nil =>
    cases ys with
    | nil => simp [List.compareLex_nil_nil]
    | cons y ys => simp [List.compareLex_nil_cons]
  | cons x xs ih =>
    cases ys with
    | nil => simp [List.compareLex_cons_nil]
    | cons y ys =>
      rw [List.compareLex_cons_cons, Ordering.then_eq_lt, ih, LawfulEqCmp.compare_eq_iff_eq,
        List.cons_lex_cons_iff]

namespace Path

theorem compare_eq_iff {p q : Path} : compare p q = .eq ↔ p.components = q.components := by
  have hcomponents : compare p q = compare p.components q.components := rfl
  rw [hcomponents, Std.compare_eq_iff_eq]

/-- The components of one path come before those of another, or are continued by them. -/
def Precedes (p q : Path) : Prop :=
  List.Lex (fun c d => compare c d = .lt) p.components q.components

theorem compare_eq_lt_iff {p q : Path} : compare p q = .lt ↔ p.Precedes q :=
  compareLex_eq_lt_iff _ _

end Path

/-! ## Sorting by a total comparison -/

namespace Sorting

variable {α : Type}

/-- The laws of a total comparison. -/
structure Laws (cmp : α → α → Ordering) : Prop where
  refl (a : α) : cmp a a = .eq
  /-- Exchanging the two members turns the outcome around. -/
  swap (a b : α) : cmp b a = (cmp a b).swap
  trans (a b c : α) : (cmp a b).isLE = true → (cmp b c).isLE = true → (cmp a c).isLE = true
  total (a b : α) : (cmp a b).isLE = true ∨ (cmp b a).isLE = true

/-- The members of a list that compare equal with something, in their order. -/
def peers (cmp : α → α → Ordering) (a : α) (xs : List α) : List α :=
  xs.filter fun b => (cmp a b).isEq

/-- What sorting by a comparison makes of a list. -/
structure Sorts (cmp : α → α → Ordering) (sort : List α → List α) : Prop where
  perm (xs : List α) : (sort xs).Perm xs
  sorted (xs : List α) : (sort xs).Pairwise fun a b => (cmp a b).isLE = true
  /-- Members that compare equal keep their order. -/
  stable (xs : List α) (a : α) : peers cmp a (sort xs) = peers cmp a xs
  /-- No other list is sorted and keeps this order. -/
  unique (xs ys : List α) : (ys.Pairwise fun a b => (cmp a b).isLE = true) →
    (∀ a, peers cmp a ys = peers cmp a xs) → ys = sort xs
  idempotent (xs : List α) : sort (sort xs) = sort xs
  /-- If no two members compare equal, their order does not matter. -/
  order_free (xs ys : List α) : (xs.Pairwise fun a b => cmp a b ≠ .eq) → ys.Perm xs →
    sort ys = sort xs

section
variable {cmp : α → α → Ordering} {a b : α} {xs ys : List α}

theorem mem_peers : b ∈ peers cmp a xs ↔ b ∈ xs ∧ cmp a b = .eq := by
  simp [peers]

theorem peers_cons_of_eq (h : cmp a b = .eq) : peers cmp a (b :: xs) = b :: peers cmp a xs := by
  simp [peers, h]

variable [TransCmp cmp]

variable (cmp) in
theorem laws : Laws cmp where
  refl _ := Std.ReflCmp.compare_self
  swap _ _ := OrientedCmp.eq_swap
  trans _ _ _ := TransCmp.isLE_trans
  total a b := by simpa using isLE_total cmp a b

theorem mem_of_peers_eq (h : ∀ a, peers cmp a xs = peers cmp a ys) (hb : b ∈ ys) : b ∈ xs := by
  have hpeer : b ∈ peers cmp b ys := mem_peers.mpr ⟨hb, Std.ReflCmp.compare_self⟩
  rw [← h b] at hpeer
  exact (mem_peers.mp hpeer).1

/-- The head of a sorted list comes before all of its members. -/
theorem isLE_head (hxs : (a :: xs).Pairwise fun a b => (cmp a b).isLE = true)
    (hb : b ∈ a :: xs) : (cmp a b).isLE = true := by
  rcases List.mem_cons.mp hb with rfl | hb
  · have hself : cmp b b = .eq := Std.ReflCmp.compare_self
    rw [hself]
    rfl
  · exact List.rel_of_pairwise_cons hxs hb

/-- A sorted list is known from its peers. -/
theorem eq_of_peers_eq (hxs : xs.Pairwise fun a b => (cmp a b).isLE = true)
    (hys : ys.Pairwise fun a b => (cmp a b).isLE = true)
    (h : ∀ a, peers cmp a xs = peers cmp a ys) : xs = ys := by
  induction xs generalizing ys with
  | nil =>
    cases ys with
    | nil => rfl
    | cons y ys => exact absurd (mem_of_peers_eq h List.mem_cons_self) List.not_mem_nil
  | cons x xs ih =>
    cases ys with
    | nil =>
      exact absurd (mem_of_peers_eq (fun a => (h a).symm) List.mem_cons_self) List.not_mem_nil
    | cons y ys =>
      -- each head is a member of the other list, so neither comes after the other
      have hxy : (cmp x y).isLE = true := isLE_head hxs (mem_of_peers_eq h List.mem_cons_self)
      have hyx : (cmp y x).isLE = true :=
        isLE_head hys (mem_of_peers_eq (fun a => (h a).symm) List.mem_cons_self)
      have heq : cmp x y = .eq := OrientedCmp.isLE_antisymm hxy hyx
      have hheads := h x
      rw [peers_cons_of_eq Std.ReflCmp.compare_self, peers_cons_of_eq heq] at hheads
      obtain rfl : x = y := (List.cons.inj hheads).1
      have htails : ∀ a, peers cmp a xs = peers cmp a ys := by
        intro a
        have ha := h a
        unfold peers at ha ⊢
        rw [List.filter_cons, List.filter_cons] at ha
        split at ha
        · exact (List.cons.inj ha).2
        · exact ha
      rw [ih hxs.of_cons hys.of_cons htails]

variable (cmp) in
theorem peers_mergeSort (xs : List α) (a : α) :
    peers cmp a (xs.mergeSort fun a b => (cmp a b).isLE) = peers cmp a xs := by
  have hsorted : (peers cmp a xs).Pairwise fun b c => (cmp b c).isLE = true := by
    refine List.pairwise_of_forall_mem_list ?_
    intro b hb c hc
    have hab : cmp a b = .eq := (mem_peers.mp hb).2
    have hac : cmp a c = .eq := (mem_peers.mp hc).2
    rw [TransCmp.eq_trans (OrientedCmp.eq_symm hab) hac]
    rfl
  have hsublist : (peers cmp a xs).Sublist (xs.mergeSort fun a b => (cmp a b).isLE) :=
    List.sublist_mergeSort (fun _ _ _ => TransCmp.isLE_trans) (isLE_total cmp) hsorted
      List.filter_sublist
  have hpeers := hsublist.filter fun b => (cmp a b).isEq
  rw [peers, List.filter_filter] at hpeers
  simp only [Bool.and_self] at hpeers
  have hlength : (peers cmp a (xs.mergeSort fun a b => (cmp a b).isLE)).length =
      (peers cmp a xs).length := ((List.mergeSort_perm xs _).filter _).length_eq
  exact (hpeers.eq_of_length hlength.symm).symm

variable (cmp) in
theorem sorts_mergeSort : Sorts cmp fun xs => xs.mergeSort fun a b => (cmp a b).isLE where
  perm xs := List.mergeSort_perm xs _
  sorted xs := pairwise_isLE cmp xs
  stable xs a := peers_mergeSort cmp xs a
  unique xs ys hys h := by
    refine eq_of_peers_eq hys (pairwise_isLE cmp xs) ?_
    intro a
    rw [h a, peers_mergeSort cmp xs a]
  idempotent xs := List.mergeSort_of_pairwise (pairwise_isLE cmp xs)
  order_free xs ys distinct h := (sort_eq_of_perm distinct h.symm).symm

end
end Sorting

/-! ## Jobs and reports -/

namespace Batch

/-- A total order of jobs by their difficulties, in some order, and then by their paths. -/
structure Job.OrdersBy (before : Binary64 → Binary64 → Prop) (cmp : Job → Job → Ordering) :
    Prop where
  laws : Sorting.Laws cmp
  eq_iff (a b : Job) : cmp a b = .eq ↔
    a.difficulty.bits = b.difficulty.bits ∧ a.path.components = b.path.components
  lt_iff (a b : Job) : cmp a b = .lt ↔ before a.difficulty b.difficulty ∨
    a.difficulty.bits = b.difficulty.bits ∧ a.path.Precedes b.path

theorem Job.ordersBy_startOrder : OrdersBy (fun x y => y.Precedes x) startOrder where
  laws := Sorting.laws startOrder
  eq_iff a b := by
    rw [startOrder, Ordering.then_eq_eq, Binary64.compare_eq_iff, Path.compare_eq_iff, eq_comm]
  lt_iff a b := by
    rw [startOrder, Ordering.then_eq_lt, Binary64.compare_eq_lt_iff_precedes,
      Binary64.compare_eq_iff, Path.compare_eq_lt_iff, eq_comm]

theorem Job.ordersBy_listOrder : OrdersBy Binary64.Precedes listOrder where
  laws := Sorting.laws listOrder
  eq_iff a b := by
    rw [listOrder, Ordering.then_eq_eq, Binary64.compare_eq_iff, Path.compare_eq_iff]
  lt_iff a b := by
    rw [listOrder, Ordering.then_eq_lt, Binary64.compare_eq_lt_iff_precedes,
      Binary64.compare_eq_iff, Path.compare_eq_lt_iff]

/-- Jobs are started with the greatest difficulty first and listed with the least one first, both
in a total order. These orders determine what scheduling jobs and sorting reports yield. -/
theorem orders_lawful :
    Job.OrdersBy (fun x y => y.Precedes x) Job.startOrder ∧
    Job.OrdersBy Binary64.Precedes Job.listOrder ∧
    Sorting.Sorts Job.startOrder schedule ∧
    Sorting.Sorts (fun r r' : JobReport => r.job.listOrder r'.job) sortReports :=
  ⟨Job.ordersBy_startOrder, Job.ordersBy_listOrder, Sorting.sorts_mergeSort _,
    Sorting.sorts_mergeSort _⟩

/-- Jobs with both zeros, an infinity and NaNs of either sign as difficulties. -/
def specialJobs : List Job :=
  [⟨⟨"a"⟩, ⟨0x0000000000000000⟩⟩, ⟨⟨"a"⟩, ⟨0xFFF8000000000000⟩⟩, ⟨⟨"a"⟩, ⟨0x7FF8000000000000⟩⟩,
    ⟨⟨"a"⟩, ⟨0x8000000000000000⟩⟩, ⟨⟨"a"⟩, ⟨0xFFF0000000000000⟩⟩, ⟨⟨"./a"⟩, ⟨0⟩⟩]

/-- Three spellings of one path, with the same difficulty. -/
def sameJobs : List Job := [⟨⟨"a//b"⟩, ⟨0⟩⟩, ⟨⟨"a/b/"⟩, ⟨0⟩⟩, ⟨⟨"a/./b"⟩, ⟨0⟩⟩]

theorem orders_lawful_specialJobs :
    specialJobs.Pairwise (fun a b => a.startOrder b ≠ .eq) ∧
    schedule specialJobs.reverse = schedule specialJobs ∧
    Sorting.peers Job.startOrder ⟨⟨"a/b"⟩, ⟨0⟩⟩ (schedule (sameJobs ++ specialJobs)) = sameJobs ∧
    sameJobs = schedule sameJobs := by
  obtain ⟨-, -, hschedule, -⟩ := orders_lawful
  have distinct : specialJobs.Pairwise fun a b => a.startOrder b ≠ .eq := by decide +kernel
  have hsame : sameJobs.Pairwise fun a b => (a.startOrder b).isLE = true := by decide +kernel
  refine ⟨distinct, ?_, ?_, ?_⟩
  · exact hschedule.order_free _ _ distinct (List.reverse_perm specialJobs)
  · rw [hschedule.stable]
    decide +kernel
  · exact hschedule.unique _ _ hsame fun _ => rfl

end Batch
end Annealing
