import Annealing.Proofs.Satisfiability.Reading
import Annealing.Proofs.Totals.Chosen
import Annealing.Satisfiability.Search

/-!
# Assignments of an instance

An assignment is faithful to its instance if the weight it keeps is the exact
total of the weights of its true terms. A well-formed instance keeps it so at
every change of a term, and has an answer for every assignment: it is
satisfied if the assignment models it, which means that every clause has a
literal that is true.
-/
namespace Annealing.Satisfiability

open Totals

variable {n : Nat}

/-- A literal is true if its term has the other value than the negation flag. -/
def Literal.TrueIn (l : Literal) (values : Vector Bool n) : Prop :=
  values[l.term]? = some !l.negated

instance (l : Literal) (values : Vector Bool n) : Decidable (l.TrueIn values) :=
  inferInstanceAs (Decidable (_ = _))

namespace Instance

variable {i : Instance} {a : Assignment i.terms.size}

/-- Every clause has a literal that is true. -/
def Models (i : Instance) (values : Vector Bool n) : Prop :=
  ∀ c ∈ i.clauses, ∃ l ∈ c, l.TrueIn values

instance (values : Vector Bool n) : Decidable (i.Models values) :=
  inferInstanceAs (Decidable (∀ c ∈ i.clauses, ∃ l ∈ c, l.TrueIn values))

/-- The term at a position. -/
def term (i : Instance) : Fin i.terms.size → Term
  | ⟨k, _⟩ => i.terms[k]

def weight (i : Instance) (k : Fin i.terms.size) : UInt64 := (i.term k).weight

/-- The total found once is that of all terms. -/
theorem sum_eq_of_totalWeight? {total : UInt64} (h : i.totalWeight? = some total) :
    ∑ k, (i.weight k).toNat = total.toNat := by
  have hweights : i.terms.toList.map Term.weight = List.ofFn i.weight := by
    apply List.ext_getElem <;> simp [weight, term]
  rw [totalWeight?, hweights] at h
  exact sum_eq_of_sum? h

theorem fits_of_totalWeight? (h : i.totalWeight?.isSome) : Fits i.weight := by
  obtain ⟨total, htotal⟩ := Option.isSome_iff_exists.mp h
  exact (sum_eq_of_totalWeight? htotal).trans_lt total.toNat_lt_size

theorem WellFormed.fits_weight (h : i.WellFormed) : Fits i.weight := fits_of_totalWeight? h.fits

end Instance

theorem Literal.holds?_eq {l : Literal} {a : Assignment n} (h : l.term < n) :
    l.holds? a = some (decide (l.TrueIn a.values)) := by
  have hvalue : a.values[l.term]? = some a.values[l.term] := Vector.getElem?_eq_getElem h
  simp only [holds?, TrueIn, hvalue, Option.map_some, Option.some.injEq]
  cases a.values[l.term] <;> cases l.negated <;> rfl

theorem Clause.holds?_eq {c : Clause} {a : Assignment n} (h : ∀ l ∈ c, l.term < n) :
    Clause.holds? c a = some (decide (∃ l ∈ c, l.TrueIn a.values)) := by
  unfold Clause.holds?
  induction c with
  | nil => rfl
  | cons l c ih =>
    rw [List.anyM, Literal.holds?_eq (h l List.mem_cons_self)]
    by_cases hl : l.TrueIn a.values
    · simp [hl]
    · have hc := ih fun l hl => h l (List.mem_cons_of_mem _ hl)
      simp [hl, hc]

theorem Clause.allM_holds?_eq {cs : List Clause} {a : Assignment n}
    (h : ∀ c ∈ cs, ∀ l ∈ c, l.term < n) : cs.allM (Clause.holds? · a) =
      some (decide (∀ c ∈ cs, ∃ l ∈ c, l.TrueIn a.values)) := by
  induction cs with
  | nil => rfl
  | cons c cs ih =>
    rw [List.allM, Clause.holds?_eq (h c List.mem_cons_self)]
    by_cases hc : ∃ l ∈ c, l.TrueIn a.values
    · have hcs := ih fun c hc => h c (List.mem_cons_of_mem _ hc)
      simp [hc, hcs]
    · simp [hc]

/-- A well-formed instance is satisfied by the assignments that model it. -/
theorem Instance.WellFormed.satisfied?_eq {i : Instance} (h : i.WellFormed)
    (a : Assignment i.terms.size) : i.satisfied? a = some (decide (i.Models a.values)) :=
  Clause.allM_holds?_eq h.inRange

/-- The weight kept in an assignment is that of its true terms. -/
def Assignment.Faithful (i : Instance) (a : Assignment i.terms.size) : Prop :=
  Kept i.weight a.values a.weight

namespace Assignment.Faithful

variable {i : Instance} {a : Assignment i.terms.size}

theorem allFalse : (Assignment.allFalse _).Faithful i := kept_none

theorem set (h : a.Faithful i) (hi : Fits i.weight) (k : Fin i.terms.size) (value : Bool) :
    (a.set k (i.term k) value).Faithful i := by
  unfold Assignment.set
  split
  case isTrue => exact h
  case isFalse hchanged =>
    cases value with
    | true =>
      have hk : a.values.get k = false := by simpa [Assignment.value] using hchanged
      exact h.add hi hk
    | false =>
      have hk : a.values.get k = true := by simpa [Assignment.value] using hchanged
      exact h.sub hk

theorem neighbor (h : a.Faithful i) (hi : i.WellFormed) (t : Tape) :
    (i.neighbor a t).1.Faithful i := by
  unfold Instance.neighbor
  split
  case isTrue => exact h.set hi.fits_weight _ _
  case isFalse => exact h

end Assignment.Faithful
end Annealing.Satisfiability
