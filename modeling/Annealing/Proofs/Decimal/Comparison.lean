import Mathlib

/-!
# Comparing binary64 numbers

Every number that is not a NaN has a place in one linear order: infinities
outermost, then the finite numbers by exponent and mantissa, and both zeros in
the middle. One number is less than another if both have places and the places
compare so. A NaN has no place and compares with nothing, itself included, so
the comparisons are transitive but not total.
-/
namespace Annealing.Comparison

open Float.Model

/-- A class, and for finite numbers exponent and mantissa, negated for negative ones. -/
abbrev Place : Type := ℤ ×ₗ ℤ ×ₗ ℤ

def place (rank exponent mantissa : ℤ) : Place := toLex (rank, toLex (exponent, mantissa))

theorem place_lt_iff {r e m r' e' m' : ℤ} : place r e m < place r' e' m' ↔
    r < r' ∨ r = r' ∧ (e < e' ∨ e = e' ∧ m < m') := by
  simp only [place, Prod.Lex.toLex_lt_toLex]

theorem place_le_iff {r e m r' e' m' : ℤ} : place r e m ≤ place r' e' m' ↔
    r < r' ∨ r = r' ∧ (e < e' ∨ e = e' ∧ m ≤ m') := by
  simp only [place, Prod.Lex.toLex_le_toLex]

/-- The place of an unpacked number; a NaN has none. -/
def unpackedPlace? : UnpackedFloat → Option Place
  | .notANumber => none
  | .infinity .negative => some (place (-2) 0 0)
  | .finite .negative m e _ => some (place (-1) (-e) (-m))
  | .zero _ => some (place 0 0 0)
  | .finite .positive m e _ => some (place 1 e m)
  | .infinity .positive => some (place 2 0 0)

section
variable {e e' : ℤ} {m m' : ℕ}

theorem then_eq_lt : (compare e e').then (compare m m') = .lt ↔ e < e' ∨ e = e' ∧ m < m' := by
  rw [Ordering.then_eq_lt, compare_lt_iff_lt, compare_eq_iff_eq, compare_lt_iff_lt]

theorem then_eq_gt : (compare e e').then (compare m m') = .gt ↔ e' < e ∨ e = e' ∧ m' < m := by
  rw [Ordering.then_eq_gt, compare_gt_iff_gt, compare_eq_iff_eq, compare_gt_iff_gt]

theorem then_isLE :
    ((compare e e').then (compare m m')).isLE = true ↔ e < e' ∨ e = e' ∧ m ≤ m' := by
  rw [Ordering.isLE_iff_ne_gt, then_eq_gt]
  omega

theorem then_isGE :
    ((compare e e').then (compare m m')).isGE = true ↔ e' < e ∨ e = e' ∧ m' ≤ m := by
  rw [Ordering.isGE_iff_ne_lt, then_eq_lt]
  omega

end

theorem unpacked_lt_iff (x y : UnpackedFloat) :
    x.lt y = true ↔ ∃ a ∈ unpackedPlace? x, ∃ b ∈ unpackedPlace? y, a < b := by
  rcases x with ⟨_ | _⟩ | _ | _ | ⟨_ | _⟩ <;> rcases y with ⟨_ | _⟩ | _ | _ | ⟨_ | _⟩ <;>
    simp [UnpackedFloat.lt, UnpackedFloat.compare, unpackedPlace?, place_lt_iff, then_eq_lt,
      then_eq_gt]
  all_goals decide

theorem unpacked_le_iff (x y : UnpackedFloat) :
    x.le y = true ↔ ∃ a ∈ unpackedPlace? x, ∃ b ∈ unpackedPlace? y, a ≤ b := by
  rcases x with ⟨_ | _⟩ | _ | _ | ⟨_ | _⟩ <;> rcases y with ⟨_ | _⟩ | _ | _ | ⟨_ | _⟩ <;>
    simp [UnpackedFloat.le, UnpackedFloat.compare, unpackedPlace?, place_le_iff, then_isLE,
      then_isGE]
  all_goals decide

/-- The place of a number; a NaN has none. -/
def place? (x : Float) : Option Place := unpackedPlace? x.toModel.unpack

section
variable {x y z : Float}

theorem lt_iff : x < y ↔ ∃ a ∈ place? x, ∃ b ∈ place? y, a < b := by
  rw [place?, place?, ← unpacked_lt_iff]
  change decide (_ = true) = true ↔ _
  rw [decide_eq_true_iff]
  rfl

theorem le_iff : x ≤ y ↔ ∃ a ∈ place? x, ∃ b ∈ place? y, a ≤ b := by
  rw [place?, place?, ← unpacked_le_iff]
  change decide (_ = true) = true ↔ _
  rw [decide_eq_true_iff]
  rfl

theorem not_lt_self : ¬ x < x := by
  rw [lt_iff]
  rintro ⟨a, ha, b, hb, hab⟩
  rw [Option.mem_unique ha hb] at hab
  exact lt_irrefl b hab

theorem le_of_lt (h : x < y) : x ≤ y := by
  obtain ⟨a, ha, b, hb, hab⟩ := lt_iff.mp h
  exact le_iff.mpr ⟨a, ha, b, hb, hab.le⟩

theorem not_lt_of_le (h : x ≤ y) : ¬ y < x := by
  rw [lt_iff]
  rintro ⟨b, hb, a, ha, hba⟩
  obtain ⟨a', ha', b', hb', hab⟩ := le_iff.mp h
  rw [Option.mem_unique ha' ha, Option.mem_unique hb' hb] at hab
  exact hab.not_gt hba

theorem exists_place (h : x.isNaN = false) : ∃ a, a ∈ place? x := by
  have hnan : x.isNaN = x.toModel.unpack.isNaN := rfl
  rw [hnan] at h
  rw [place?]
  generalize x.toModel.unpack = u at h ⊢
  rcases u with ⟨_ | _⟩ | _ | _ | ⟨_ | _⟩
  case notANumber => cases h
  all_goals exact ⟨_, rfl⟩

/-- The order is total where it is defined. -/
theorem lt_of_not_le (hx : x.isNaN = false) (hy : y.isNaN = false) (h : ¬ x ≤ y) : y < x := by
  obtain ⟨a, ha⟩ := exists_place hx
  obtain ⟨b, hb⟩ := exists_place hy
  refine lt_iff.mpr ⟨b, hb, a, ha, ?_⟩
  by_contra hba
  exact h (le_iff.mpr ⟨a, ha, b, hb, not_lt.mp hba⟩)

theorem lt_of_lt_of_le (hxy : x < y) (hyz : y ≤ z) : x < z := by
  obtain ⟨a, ha, b, hb, hab⟩ := lt_iff.mp hxy
  obtain ⟨b', hb', c, hc, hbc⟩ := le_iff.mp hyz
  rw [Option.mem_unique hb' hb] at hbc
  exact lt_iff.mpr ⟨a, ha, c, hc, hab.trans_le hbc⟩

end
end Annealing.Comparison
