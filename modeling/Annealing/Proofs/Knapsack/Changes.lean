import Annealing.Proofs.Knapsack.Selection

/-!
# Changes of a selection

Items are added, removed and toggled in any order, each of them as often as
one likes. A change that finds its item as it is to be does nothing. Any other
change turns one bit and adjusts the totals by that item, so after every
change they are the exact totals of the selected items, and none of the sums
and differences leaves the range of words.
-/
namespace Annealing.Knapsack

open Totals

/-- A change of a selection among `n` items, by the position of an item. -/
inductive Change (n : Nat) where
  | add (k : Fin n)
  | remove (k : Fin n)
  | toggle (k : Fin n)
  deriving DecidableEq, Repr

namespace Change

variable {n : Nat}

def position : Change n → Fin n
  | .add k => k
  | .remove k => k
  | .toggle k => k

/-- Whether the item is selected after a change, by whether it was before. -/
def target (selected : Bool) : Change n → Bool
  | .add _ => true
  | .remove _ => false
  | .toggle _ => !selected

/-- Whether a change that was asked for has taken place. Toggling always does and does
not tell. -/
def answer? (selected : Bool) : Change n → Option Bool
  | .add _ => some !selected
  | .remove _ => some selected
  | .toggle _ => none

end Change

namespace Selection

/-- What a change makes of a selection and answers. No other item is selected or
deselected, and what has not taken place has changed nothing. -/
structure Effect {n : Nat} (s : Selection n) (change : Change n) (answer? : Option Bool)
    (after : Selection n) : Prop where
  contains_eq : after.contains change.position = change.target (s.contains change.position)
  frame : ∀ j, j ≠ change.position → after.contains j = s.contains j
  answer_eq : answer? = change.answer? (s.contains change.position)
  unchanged : answer? = some false → after = s

/-- The totals of a selection are the exact totals of the selected items and at most those
of all items. There is room for every item that is not selected, and every other one can
be taken away. -/
structure Sound (i : Instance) (weight price : UInt64) (s : Selection i.items.size) : Prop where
  weight_eq : s.weight.toNat = chosen i.weight s.bits
  price_eq : s.price.toNat = chosen i.price s.bits
  weight_le : s.weight ≤ weight
  price_le : s.price ≤ price
  room : ∀ k, s.contains k = false →
    s.weight.toNat + (i.weight k).toNat ≤ weight.toNat ∧
      s.price.toNat + (i.price k).toNat ≤ price.toNat
  removable : ∀ k, s.contains k = true → i.weight k ≤ s.weight ∧ i.price k ≤ s.price

end Selection

namespace Instance

/-- Makes a change with an item of the instance. -/
def change (i : Instance) (s : Selection i.items.size) :
    Change i.items.size → Option Bool × Selection i.items.size
  | .add k => (some (s.add k (i.item k)).1, (s.add k (i.item k)).2)
  | .remove k => (some (s.remove k (i.item k)).1, (s.remove k (i.item k)).2)
  | .toggle k => (none, s.toggle k (i.item k))

/-- Makes changes one after the other, from the empty selection on. -/
def changed (i : Instance) (changes : List (Change i.items.size)) : Selection i.items.size :=
  changes.foldl (fun s change => (i.change s change).2) (.empty _)

end Instance

variable {i : Instance} {s : Selection i.items.size}

/-- A change that finds its item as it is to be does nothing. Any other one turns the bit of
its item and adjusts the totals by it. -/
theorem Instance.change_eq (i : Instance) (s : Selection i.items.size)
    (change : Change i.items.size) : i.change s change =
      (change.answer? (s.contains change.position),
        if change.target (s.contains change.position) = s.contains change.position then s
        else if s.contains change.position then
          ⟨s.bits.set change.position false change.position.isLt,
            s.weight - i.weight change.position, s.price - i.price change.position⟩
        else
          ⟨s.bits.set change.position true change.position.isLt,
            s.weight + i.weight change.position, s.price + i.price change.position⟩) := by
  cases change with
  | add k => cases hk : s.contains k <;>
      simp [Instance.change, Selection.add, Change.answer?, Change.target, Change.position, hk,
        weight, price]
  | remove k => cases hk : s.contains k <;>
      simp [Instance.change, Selection.remove, Change.answer?, Change.target, Change.position, hk,
        weight, price]
  | toggle k => cases hk : s.contains k <;>
      simp [Instance.change, Selection.toggle, Selection.add, Selection.remove, Change.answer?,
        Change.target, Change.position, hk, weight, price]

/-- Only a change that finds its item as it is to be tells that it has not taken place. -/
theorem Change.target_eq_of_answer? {n : Nat} {change : Change n} {selected : Bool}
    (h : change.answer? selected = some false) : change.target selected = selected := by
  cases change with
  | add k => simpa [Change.answer?, Change.target] using h.symm
  | remove k => simpa [Change.answer?, Change.target] using h.symm
  | toggle k => cases h

theorem Instance.effect_change (s : Selection i.items.size) (change : Change i.items.size) :
    s.Effect change (i.change s change).1 (i.change s change).2 := by
  rw [change_eq]
  by_cases htarget : change.target (s.contains change.position) = s.contains change.position
  · rw [if_pos htarget]
    exact ⟨htarget.symm, fun _ _ => rfl, rfl, fun _ => rfl⟩
  · rw [if_neg htarget]
    refine ⟨?_, ?_, rfl, fun hanswer => absurd (Change.target_eq_of_answer? hanswer) htarget⟩
    · rw [Bool.eq_not_of_ne htarget]
      cases s.contains change.position with
      | false => exact get_set_self
      | true => exact get_set_self
    · intro j hj
      cases s.contains change.position with
      | false => exact get_set_ne hj
      | true => exact get_set_ne hj

theorem Selection.Faithful.change (h : s.Faithful i) (hi : i.totals?.isSome)
    (change : Change i.items.size) : (i.change s change).2.Faithful i := by
  cases change with
  | add k => exact h.add hi k
  | remove k => exact h.remove k
  | toggle k => exact h.toggle hi k

/-- Whatever is changed, the totals stay those of the selected items. -/
theorem Selection.Faithful.changed (hi : i.totals?.isSome) (changes : List (Change i.items.size)) :
    (i.changed changes).Faithful i := by
  induction changes using List.reverseRecOn with
  | nil => exact .empty
  | append_singleton changes change ih =>
    rw [Instance.changed, List.foldl_concat]
    exact ih.change hi change

theorem Selection.Faithful.sound {weight price : UInt64} (h : s.Faithful i)
    (totals : i.totals? = some (weight, price)) : s.Sound i weight price := by
  obtain ⟨hweight, hprice⟩ := Instance.sum_eq_of_totals? totals
  constructor
  · exact h.weight
  · exact h.price
  · exact UInt64.le_iff_toNat_le.mpr (hweight ▸ h.weight.le)
  · exact UInt64.le_iff_toNat_le.mpr (hprice ▸ h.price.le)
  · intro k hk
    exact ⟨hweight ▸ h.weight.add_le hk, hprice ▸ h.price.add_le hk⟩
  · intro k hk
    exact ⟨h.weight.word_le hk, h.price.word_le hk⟩

/-- After any changes the totals of a selection are those of the selected items and never
above those of the instance, and the next change does to its own item what it says and
nothing else. -/
theorem changed_sound {weight price : UInt64} (totals : i.totals? = some (weight, price))
    (changes : List (Change i.items.size)) :
    (i.changed changes).Sound i weight price ∧
      ∀ change, (i.changed changes).Effect change (i.change (i.changed changes) change).1
        (i.changed (changes ++ [change])) := by
  have hi : i.totals?.isSome := Option.isSome_iff_exists.mpr ⟨_, totals⟩
  refine ⟨(Selection.Faithful.changed hi changes).sound totals, ?_⟩
  intro change
  have hchanged : i.changed (changes ++ [change]) = (i.change (i.changed changes) change).2 :=
    List.foldl_concat ..
  rw [hchanged]
  exact Instance.effect_change _ change

/-- Two items that weigh as much together as a word can say. -/
def heavyItems : Instance :=
  ⟨1, 0x8000000000000000, #[⟨0x8000000000000000, 3⟩, ⟨0x7FFFFFFFFFFFFFFF, 4⟩]⟩

/-- Changes of which two do nothing and one is taken back. -/
def heavyChanges : List (Change heavyItems.items.size) :=
  [.add ⟨0, by decide⟩, .add ⟨0, by decide⟩, .toggle ⟨1, by decide⟩, .remove ⟨1, by decide⟩,
    .remove ⟨1, by decide⟩, .toggle ⟨1, by decide⟩]

theorem changed_sound_heavyItems :
    heavyItems.totals? = some (0xFFFFFFFFFFFFFFFF, 7) ∧
      (heavyItems.changed heavyChanges).Sound heavyItems 0xFFFFFFFFFFFFFFFF 7 ∧
      (heavyItems.changed heavyChanges).weight = 0xFFFFFFFFFFFFFFFF := by
  have totals : heavyItems.totals? = some (0xFFFFFFFFFFFFFFFF, 7) := by decide
  exact ⟨totals, (changed_sound totals heavyChanges).1, by decide⟩

end Annealing.Knapsack
