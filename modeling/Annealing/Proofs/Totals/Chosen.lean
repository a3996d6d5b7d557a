import Annealing.Totals
import Mathlib.Algebra.BigOperators.Fin
import Mathlib.Algebra.Order.BigOperators.Group.Finset

/-!
# Totals of chosen words

A choice among some words is given by one bit for each. Its exact total is a
sum of natural numbers. A word is kept as that total by adding a word that is
chosen and subtracting one that is dropped: neither can leave the range of
words as long as the total of all words does not.
-/
namespace Annealing.Totals

variable {n : Nat} {w : Fin n → UInt64} {bits : Vector Bool n} {total : UInt64} {i : Fin n}

section
variable {α : Type} {xs : Vector α n} {x : α} {k : Fin n}

@[simp] theorem get_replicate : (Vector.replicate n x).get k = x :=
  Vector.getElem_replicate k.isLt

@[simp] theorem get_set_self : (xs.set i x i.isLt).get i = x := Vector.getElem_set_self i.isLt

theorem get_set_ne (h : k ≠ i) : (xs.set i x i.isLt).get k = xs.get k :=
  Vector.getElem_set_ne i.isLt k.isLt fun heq => h (Fin.ext heq.symm)

end

/-- The exact total of the chosen words. -/
def chosen (w : Fin n → UInt64) (bits : Vector Bool n) : Nat :=
  ∑ k : Fin n, (w k).toNat * (bits.get k).toNat

theorem chosen_none : chosen w (Vector.replicate n false) = 0 := by
  simp [chosen]

/-- A choice and the choice with one bit changed differ by one word. -/
theorem chosen_set (w : Fin n → UInt64) (bits : Vector Bool n) (i : Fin n) (b : Bool) :
    chosen w (bits.set i b i.isLt) + (w i).toNat * (bits.get i).toNat =
      chosen w bits + (w i).toNat * b.toNat := by
  have hrest : ∑ k ∈ Finset.univ.erase i, (w k).toNat * ((bits.set i b i.isLt).get k).toNat =
      ∑ k ∈ Finset.univ.erase i, (w k).toNat * (bits.get k).toNat := by
    apply Finset.sum_congr rfl
    intro k hk
    rw [get_set_ne (Finset.ne_of_mem_erase hk)]
  unfold chosen
  rw [← Finset.add_sum_erase _ _ (Finset.mem_univ i), hrest,
    ← Finset.add_sum_erase _ (fun k => (w k).toNat * (bits.get k).toNat) (Finset.mem_univ i)]
  simp
  omega

theorem chosen_le (w : Fin n → UInt64) (bits : Vector Bool n) :
    chosen w bits ≤ ∑ k, (w k).toNat := by
  apply Finset.sum_le_sum
  intro k _
  cases bits.get k <;> simp

/-- The total of all words is a word. -/
def Fits (w : Fin n → UInt64) : Prop := ∑ k, (w k).toNat < UInt64.size

/-- A word is the exact total of a choice. -/
def Kept (w : Fin n → UInt64) (bits : Vector Bool n) (total : UInt64) : Prop :=
  total.toNat = chosen w bits

theorem kept_none : Kept w (Vector.replicate n false) 0 := by
  rw [Kept, chosen_none]
  rfl

/-- Another word can be chosen without leaving the total of all words. -/
theorem Kept.add_le (hk : Kept w bits total) (hi : bits.get i = false) :
    total.toNat + (w i).toNat ≤ ∑ k, (w k).toNat := by
  have hset := chosen_set w bits i true
  have hle := chosen_le w (bits.set i true i.isLt)
  simp only [hi, Bool.toNat_false, Bool.toNat_true, Nat.mul_zero, Nat.mul_one] at hset
  rw [hk]
  omega

/-- A chosen word is part of the total. -/
theorem Kept.word_le (hk : Kept w bits total) (hi : bits.get i = true) : w i ≤ total := by
  have hset := chosen_set w bits i false
  simp only [hi, Bool.toNat_false, Bool.toNat_true, Nat.mul_zero, Nat.mul_one] at hset
  rw [UInt64.le_iff_toNat_le, hk]
  omega

theorem Kept.le (hk : Kept w bits total) : total.toNat ≤ ∑ k, (w k).toNat :=
  hk.trans_le (chosen_le w bits)

theorem Kept.add (hk : Kept w bits total) (hw : Fits w) (hi : bits.get i = false) :
    Kept w (bits.set i true i.isLt) (total + w i) := by
  have hset := chosen_set w bits i true
  have hlt : total.toNat + (w i).toNat < UInt64.size := (hk.add_le hi).trans_lt hw
  simp only [hi, Bool.toNat_false, Bool.toNat_true, Nat.mul_zero, Nat.mul_one] at hset
  unfold Kept at hk ⊢
  rw [UInt64.toNat_add, Nat.mod_eq_of_lt hlt]
  omega

theorem Kept.sub (hk : Kept w bits total) (hi : bits.get i = true) :
    Kept w (bits.set i false i.isLt) (total - w i) := by
  have hset := chosen_set w bits i false
  have hle := hk.word_le hi
  simp only [hi, Bool.toNat_false, Bool.toNat_true, Nat.mul_zero, Nat.mul_one] at hset
  unfold Kept at hk ⊢
  rw [UInt64.toNat_sub_of_le _ _ hle]
  omega

theorem exact_eq_sum (ws : List UInt64) : exact ws = (ws.map UInt64.toNat).sum := by
  induction ws with
  | nil => rfl
  | cons word ws ih => rw [exact, List.foldr_cons, List.map_cons, List.sum_cons, ← ih, exact]

/-- The checked sum is a word exactly when the sum of the natural numbers is small enough. -/
theorem isSome_sum?_iff {ws : List UInt64} :
    (sum? ws).isSome ↔ (ws.map UInt64.toNat).sum < UInt64.size := by
  rw [Option.isSome_iff_exists, ← exact_eq_sum]
  simp only [sum?_eq_some_iff]
  constructor
  · rintro ⟨c, hc⟩
    exact hc ▸ c.toNat_lt_size
  · intro h
    exact ⟨.ofNat (exact ws), (UInt64.toNat_ofNat_of_lt' h).symm⟩

theorem sum_eq_of_sum? {c : UInt64} (h : sum? (List.ofFn w) = some c) :
    ∑ k, (w k).toNat = c.toNat := by
  rw [sum?_eq_some_iff, exact_eq_sum, List.map_ofFn, List.sum_ofFn] at h
  exact h

end Annealing.Totals
