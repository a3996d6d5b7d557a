import Annealing.Knapsack.Search
import Annealing.Proofs.Totals.Chosen

/-!
# Selections of an instance

A selection is faithful to its instance if the totals it keeps are the exact
totals of the selected items. Toggling an item keeps it so, provided that the
totals of all items are words, which is checked when an instance is read.
-/
namespace Annealing.Knapsack

open Totals

namespace Instance

/-- The item at a position. -/
def item (i : Instance) : Fin i.items.size → Item
  | ⟨k, _⟩ => i.items[k]

def weight (i : Instance) (k : Fin i.items.size) : UInt64 := (i.item k).weight

def price (i : Instance) (k : Fin i.items.size) : UInt64 := (i.item k).price

end Instance

variable {i : Instance} {s : Selection i.items.size}

/-- The totals found once are those of all items. -/
theorem Instance.sum_eq_of_totals? {weight price : UInt64}
    (h : i.totals? = some (weight, price)) :
    ∑ k, (i.weight k).toNat = weight.toNat ∧ ∑ k, (i.price k).toNat = price.toNat := by
  have hweights : i.items.toList.map Item.weight = List.ofFn i.weight := by
    apply List.ext_getElem <;> simp [Instance.weight, item]
  have hprices : i.items.toList.map Item.price = List.ofFn i.price := by
    apply List.ext_getElem <;> simp [Instance.price, item]
  unfold totals? at h
  rw [hweights, hprices] at h
  split at h
  case h_1 _ _ hweight hprice =>
    cases h
    exact ⟨sum_eq_of_sum? hweight, sum_eq_of_sum? hprice⟩
  case h_2 => cases h

theorem Instance.fits_of_totals? (h : i.totals?.isSome) : Fits i.weight ∧ Fits i.price := by
  obtain ⟨⟨weight, price⟩, htotals⟩ := Option.isSome_iff_exists.mp h
  obtain ⟨hweight, hprice⟩ := sum_eq_of_totals? htotals
  exact ⟨hweight.trans_lt weight.toNat_lt_size, hprice.trans_lt price.toNat_lt_size⟩

/-- The totals kept in a selection are those of the selected items. -/
structure Selection.Faithful (i : Instance) (s : Selection i.items.size) : Prop where
  weight : Kept i.weight s.bits s.weight
  price : Kept i.price s.bits s.price

namespace Selection.Faithful

theorem empty : (Selection.empty _).Faithful i := ⟨kept_none, kept_none⟩

theorem add (h : s.Faithful i) (hi : i.totals?.isSome) (k : Fin i.items.size) :
    (s.add k (i.item k)).2.Faithful i := by
  obtain ⟨hweight, hprice⟩ := Instance.fits_of_totals? hi
  unfold Selection.add
  split
  case isTrue => exact h
  case isFalse hk =>
    have hbit : s.bits.get k = false := Bool.not_eq_true _ ▸ hk
    exact ⟨h.weight.add hweight hbit, h.price.add hprice hbit⟩

theorem remove (h : s.Faithful i) (k : Fin i.items.size) :
    (s.remove k (i.item k)).2.Faithful i := by
  unfold Selection.remove
  split
  case isTrue hk => exact ⟨h.weight.sub hk, h.price.sub hk⟩
  case isFalse => exact h

theorem toggle (h : s.Faithful i) (hi : i.totals?.isSome) (k : Fin i.items.size) :
    (s.toggle k (i.item k)).Faithful i := by
  unfold Selection.toggle
  split
  case isTrue => exact h.remove k
  case isFalse => exact h.add hi k

theorem neighbor (h : s.Faithful i) (hi : i.totals?.isSome) (t : Tape) :
    (i.neighbor s t).1.Faithful i := by
  unfold Instance.neighbor
  split
  case isTrue => exact h.toggle hi _
  case isFalse => exact h

end Selection.Faithful

theorem Instance.fits_iff (h : s.Faithful i) :
    i.fits s = true ↔ chosen i.weight s.bits ≤ i.capacity.toNat := by
  rw [← h.weight, ← UInt64.le_iff_toNat_le]
  exact decide_eq_true_iff

end Annealing.Knapsack
