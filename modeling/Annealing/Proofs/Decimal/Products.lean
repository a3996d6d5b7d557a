import Annealing.Proofs.Decimal.Values

/-!
# Products that fall

A number times a factor less than one is a smaller number unless rounding
returns to it. Rounding does so only near the bottom of the number range,
where the numbers are equally spaced and a small one loses less than half a
unit. A smaller number loses less, so if its product falls, then so do those
of all larger ones.
-/
namespace Annealing.Magnitude

open Rounding

theorem HasValue.exists_unit_mul {x : Float} {v : ℚ} (hx : HasValue x v) :
    ∃ m : ℕ, v = m * 2 ^ (-1074 : ℤ) := by
  obtain ⟨m, e, hx, rfl⟩ := hx
  have hmin := hx.canonical.le_exponent
  refine ⟨m * 2 ^ (e + 1074).toNat, ?_⟩
  have hsum : (2 : ℚ) ^ e = 2 ^ ((e + 1074).toNat : ℤ) * 2 ^ (-1074 : ℤ) := by
    rw [← two_zpow_add]
    congr 1
    omega
  rw [hsum, zpow_natCast, Nat.cast_mul, Nat.cast_pow, Nat.cast_ofNat, mul_assoc]

section
variable {x y z : Float} {u v w n n' : ℚ}

/-- A positive number that is less than one by half a unit at least. -/
structure IsFactor (u : ℚ) : Prop where
  pos : 0 < u
  le : u ≤ 1 - 2 ^ (-53 : ℤ)

theorem IsFactor.lt_one (hu : IsFactor u) : u < 1 := by
  have hpos := two_zpow_pos (-53)
  linarith [hu.le]

theorem smallest_normal_eq : (2 : ℚ) ^ (-1022 : ℤ) = 2 ^ 52 * 2 ^ (-1074 : ℤ) := by
  rw [← zpow_natCast, ← two_zpow_add]
  rfl

/-- The loss of a number whose mantissa is full. -/
theorem half_lt_loss {m : ℕ} (e : ℤ) (hu : IsFactor u) (hm : 2 ^ 52 < m) :
    (2 : ℚ) ^ e / 2 < m * 2 ^ e - m * 2 ^ e * u := by
  have hpos := two_zpow_pos e
  have hm' : (2 : ℚ) ^ 52 < m := by exact_mod_cast hm
  have hloss : (2 : ℚ) ^ (-53 : ℤ) ≤ 1 - u := by linarith [hu.le]
  calc (2 : ℚ) ^ e / 2 = 2 ^ 52 * 2 ^ e * 2 ^ (-53 : ℤ) := by norm_num; ring
    _ < m * 2 ^ e * 2 ^ (-53 : ℤ) := by gcongr
    _ ≤ m * 2 ^ e * (1 - u) := by gcongr
    _ = m * 2 ^ e - m * 2 ^ e * u := by ring

/-- Above the subnormal numbers every product falls. -/
theorem fall_of_normal (hu : IsFactor u) (hx : HasValue x v) (hv : 2 ^ (-1022 : ℤ) < v)
    (h : Nearest (v * u) w) : w < v := by
  obtain ⟨m, e, hx, rfl⟩ := hx
  obtain ⟨hm, he, hfull⟩ := hx.canonical
  have hsubnormal : Canonical (2 ^ 52) (-1074) := ⟨by norm_num, le_rfl, .inr rfl⟩
  have hindex : index (2 ^ 52) (-1074) < index m e := by
    rwa [← hsubnormal.value_lt_iff hx.canonical, Nat.cast_pow, Nat.cast_ofNat,
      ← smallest_normal_eq]
  simp only [index, neg_add_cancel, Int.toNat_zero, zero_mul, zero_add] at hindex
  by_cases hpower : m = 2 ^ 52
  · -- The numbers below a power of two are closer to it than those above.
    have hvalue : (m : ℚ) * 2 ^ e = (2 ^ 53 : ℕ) * 2 ^ (e - 1) := by
      rw [hpower, two_zpow_eq_double e, Nat.cast_pow, Nat.cast_pow, Nat.cast_ofNat]
      ring
    rw [hvalue] at h ⊢
    exact h.lt_of_half_lt (by norm_num) le_rfl (by omega) (half_lt_loss _ hu (by norm_num))
  · have hlt : 2 ^ 52 < m := by omega
    exact h.lt_of_half_lt (by omega) hm.le he (half_lt_loss _ hu hlt)

/-- A product that falls has lost half of the smallest unit at least. -/
theorem half_le_loss (hx : HasValue x n) (hy : HasValue y n') (h : Nearest v n') (hv : v ≤ n)
    (hfall : n' < n) : 2 ^ (-1074 : ℤ) / 2 ≤ n - v := by
  have hle := h.fall_le hx.mem_grid hv
  obtain ⟨m, rfl⟩ := hx.exists_unit_mul
  obtain ⟨m', rfl⟩ := hy.exists_unit_mul
  have hpos := two_zpow_pos (-1074)
  have hm : (m' : ℚ) + 1 ≤ m := by
    exact_mod_cast lt_of_mul_lt_mul_right hfall hpos.le
  have hunit : 2 ^ (-1074 : ℤ) ≤ ((m : ℚ) - m') * 2 ^ (-1074 : ℤ) :=
    le_mul_of_one_le_left hpos.le (by linarith)
  linarith

/-- If the product of a number falls, so do those of all larger ones. -/
theorem fall_of_lt (hu : IsFactor u) (hx : HasValue x n) (hy : HasValue y n')
    (h : Nearest (n * u) n') (hfall : n' < n) (hz : HasValue z v) (hlt : n < v)
    (h' : Nearest (v * u) w) : w < v := by
  by_cases hv : 2 ^ (-1022 : ℤ) < v
  · exact fall_of_normal hu hz hv h'
  have hhalf := half_le_loss hx hy h (mul_le_of_le_one_right hx.nonneg hu.lt_one.le) hfall
  have hloss : n - n * u < v - v * u := by
    have hpos : 0 < (v - n) * (1 - u) := mul_pos (by linarith) (by linarith [hu.lt_one])
    linarith
  obtain ⟨m, rfl⟩ := hz.exists_unit_mul
  have hm : (m : ℚ) ≤ 2 ^ 52 := by
    rw [smallest_normal_eq] at hv
    exact le_of_mul_le_mul_right (not_lt.mp hv) (two_zpow_pos _)
  have hm' : m ≤ 2 ^ 52 := by exact_mod_cast hm
  have hm₀ : m ≠ 0 := mantissa_ne_zero (hx.nonneg.trans_lt hlt)
  exact h'.lt_of_half_lt hm₀ (by omega) le_rfl (hhalf.trans_lt hloss)

end
end Annealing.Magnitude
