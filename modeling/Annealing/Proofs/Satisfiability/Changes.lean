import Annealing.Proofs.Satisfiability.Assignment
import Mathlib.Data.Nat.Bits

/-!
# Changes of an assignment

Terms are set and toggled in any order, each of them as often as one likes. To
toggle a term is to set it to its other value, so there is one kind of change
only: it gives one term a value, and does nothing if the term has that value.
After any changes a term has the value it was last set to, or false if it never
was, turned once for every toggle since then, and the weight kept is the exact
total of the true terms.
-/
namespace Annealing.Satisfiability

open Totals

/-- A change of an assignment of `n` terms, by the position of a term. -/
inductive Change (n : Nat) where
  | set (k : Fin n) (value : Bool)
  | toggle (k : Fin n)
  deriving DecidableEq, Repr

namespace Change

variable {n : Nat}

def position : Change n → Fin n
  | .set k _ => k
  | .toggle k => k

/-- The value of the term after a change, by its value before. -/
def target (value : Bool) : Change n → Bool
  | .set _ value' => value'
  | .toggle _ => !value

end Change

namespace Instance

/-- Makes a change with a term of the instance. -/
def change (i : Instance) (a : Assignment i.terms.size) :
    Change i.terms.size → Assignment i.terms.size
  | .set k value => a.set k (i.term k) value
  | .toggle k => a.toggle k (i.term k)

/-- Makes changes one after the other, from the assignment without true terms on. -/
def changed (i : Instance) (changes : List (Change i.terms.size)) : Assignment i.terms.size :=
  changes.foldl i.change (.allFalse _)

end Instance

/-- The weight of an assignment is the exact total of the true terms and at most that of all
terms. There is room for every term that is false, and every other one can be taken away. -/
structure Assignment.Sound (i : Instance) (total : UInt64) (a : Assignment i.terms.size) :
    Prop where
  weight_eq : a.weight.toNat = chosen i.weight a.values
  weight_le : a.weight ≤ total
  room : ∀ k, a.value k = false → a.weight.toNat + (i.weight k).toNat ≤ total.toNat
  removable : ∀ k, a.value k = true → i.weight k ≤ a.weight

section
variable {n : Nat} {a : Assignment n} {k j : Fin n}

theorem Assignment.set_value_self (a : Assignment n) (k : Fin n) (term : Term) :
    a.set k term (a.value k) = a := if_pos rfl

theorem Assignment.value_set (a : Assignment n) (k j : Fin n) (term : Term) (value : Bool) :
    (a.set k term value).value j = if j = k then value else a.value j := by
  unfold Assignment.set
  by_cases hheld : a.value k = value
  · rw [if_pos hheld]
    by_cases hj : j = k
    · rw [if_pos hj, hj, hheld]
    · rw [if_neg hj]
  · rw [if_neg hheld]
    by_cases hj : j = k
    · rw [if_pos hj, hj]
      exact get_set_self
    · rw [if_neg hj]
      exact get_set_ne hj

end

variable {i : Instance} {a : Assignment i.terms.size} {changes : List (Change i.terms.size)}

theorem Instance.change_eq (i : Instance) (a : Assignment i.terms.size)
    (change : Change i.terms.size) : i.change a change =
      a.set change.position (i.term change.position) (change.target (a.value change.position)) := by
  cases change with
  | set k value => rfl
  | toggle k => rfl

theorem Instance.value_change (a : Assignment i.terms.size) (change : Change i.terms.size)
    (k : Fin i.terms.size) : (i.change a change).value k =
      if k = change.position then change.target (a.value k) else a.value k := by
  rw [change_eq, Assignment.value_set]
  split
  case isTrue hk => rw [hk]
  case isFalse => rfl

/-- As long as a term is not set, its value is turned by its toggles and by nothing else. -/
theorem Instance.value_foldl_change {k : Fin i.terms.size} (h : ∀ value, .set k value ∉ changes)
    (a : Assignment i.terms.size) :
    (changes.foldl i.change a).value k = (a.value k ^^ (changes.count (.toggle k)).bodd) := by
  induction changes generalizing a with
  | nil => simp
  | cons change changes ih =>
    have hrest : ∀ value, .set k value ∉ changes := fun value hmem =>
      h value (List.mem_cons_of_mem _ hmem)
    rw [List.foldl_cons, ih hrest, value_change]
    cases change with
    | set j value =>
      have hj : k ≠ j := by
        rintro rfl
        exact h value List.mem_cons_self
      simp [Change.position, hj]
    | toggle j =>
      by_cases hj : k = j
      · simp [Change.position, Change.target, hj]
      · have hne : ¬ j = k := fun heq => hj heq.symm
        simp [Change.position, hj, hne]

theorem Assignment.Faithful.change (h : a.Faithful i) (hi : Fits i.weight)
    (change : Change i.terms.size) : (i.change a change).Faithful i := by
  rw [Instance.change_eq]
  exact h.set hi _ _

/-- Whatever is changed, the weight stays that of the true terms. -/
theorem Assignment.Faithful.changed (hi : Fits i.weight)
    (changes : List (Change i.terms.size)) : (i.changed changes).Faithful i := by
  induction changes using List.reverseRecOn with
  | nil => exact .allFalse
  | append_singleton changes change ih =>
    rw [Instance.changed, List.foldl_concat]
    exact ih.change hi change

theorem Assignment.Faithful.sound {total : UInt64} (h : a.Faithful i)
    (htotal : i.totalWeight? = some total) : a.Sound i total := by
  have hsum := Instance.sum_eq_of_totalWeight? htotal
  constructor
  · exact h
  · exact UInt64.le_iff_toNat_le.mpr (hsum ▸ h.le)
  · intro k hk
    exact hsum ▸ h.add_le hk
  · intro k hk
    exact h.word_le hk

/-- After any changes the weight is that of the true terms and never above that of all terms.
A term that was never set has been turned by its toggles from false, and one that was set by
the toggles since then from the value it was set to. Setting a term to the value it has
changes nothing. -/
theorem changed_weight_values {total : UInt64} (htotal : i.totalWeight? = some total)
    (changes : List (Change i.terms.size)) :
    (i.changed changes).Sound i total ∧
    (∀ k, (∀ value, .set k value ∉ changes) →
      (i.changed changes).value k = (changes.count (.toggle k)).bodd) ∧
    (∀ k value before after, changes = before ++ .set k value :: after →
      (∀ value', .set k value' ∉ after) →
        (i.changed changes).value k = (value ^^ (after.count (.toggle k)).bodd)) ∧
    ∀ k, i.changed (changes ++ [.set k ((i.changed changes).value k)]) = i.changed changes := by
  have hfits := Instance.fits_of_totalWeight? (Option.isSome_of_eq_some htotal)
  refine ⟨(Assignment.Faithful.changed hfits changes).sound htotal, ?_, ?_, ?_⟩
  · intro k hunset
    have hstart : (Assignment.allFalse i.terms.size).value k = false := get_replicate
    rw [Instance.changed, Instance.value_foldl_change hunset, hstart, Bool.false_xor]
  · intro k value before after hsplit hunset
    rw [Instance.changed, hsplit, List.foldl_append, List.foldl_cons,
      Instance.value_foldl_change hunset, Instance.value_change]
    simp [Change.position, Change.target]
  · intro k
    rw [Instance.changed, List.foldl_concat]
    exact Assignment.set_value_self _ k _

/-- Two terms that weigh as much together as a word can say. -/
def heavyTerms : Instance :=
  ⟨1, #[⟨"1", 0x8000000000000000⟩, ⟨"2", 0x7FFFFFFFFFFFFFFF⟩], []⟩

/-- The first term is set twice, the second time to the value it has, and toggled three times
after that. The second term is toggled twice. -/
def heavyChanges : List (Change heavyTerms.terms.size) :=
  [.toggle ⟨1, by decide⟩, .set ⟨0, by decide⟩ true, .toggle ⟨0, by decide⟩,
    .set ⟨0, by decide⟩ false, .toggle ⟨0, by decide⟩, .toggle ⟨0, by decide⟩,
    .toggle ⟨1, by decide⟩, .toggle ⟨0, by decide⟩]

theorem changed_weight_values_heavyTerms :
    heavyTerms.totalWeight? = some 0xFFFFFFFFFFFFFFFF ∧
      (heavyTerms.changed heavyChanges).Sound heavyTerms 0xFFFFFFFFFFFFFFFF ∧
      (heavyTerms.changed heavyChanges).value ⟨0, by decide⟩ = true ∧
      (heavyTerms.changed heavyChanges).value ⟨1, by decide⟩ = false ∧
      heavyTerms.changed (heavyChanges ++ [.set ⟨0, by decide⟩ true]) =
        heavyTerms.changed heavyChanges := by
  have htotal : heavyTerms.totalWeight? = some 0xFFFFFFFFFFFFFFFF := by decide
  obtain ⟨hsound, hunset, hset, hheld⟩ := changed_weight_values htotal heavyChanges
  have hfirst := hset ⟨0, by decide⟩ false (heavyChanges.take 3) (heavyChanges.drop 4) rfl
    (by decide)
  have hsecond := hunset ⟨1, by decide⟩ (by decide)
  have hagain := hheld ⟨0, by decide⟩
  rw [hfirst] at hagain
  exact ⟨htotal, hsound, hfirst, hsecond, hagain⟩

end Annealing.Satisfiability
