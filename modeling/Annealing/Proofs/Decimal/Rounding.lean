import Annealing.Proofs.Decimal.Packing

/-!
# Rounding

Results of operations are rounded to the nearest number with a mantissa of 53
bits. Rounding shifts the superfluous bits out, and remembers what has been
lost in two further bits. However ties are broken, none of the numbers in the
grid is nearer to the exact result, and nothing else is used of rounding.
-/
namespace Annealing.Rounding

open Float.Model Float.Model.UnpackedFloat Magnitude

/-- What is left of a mantissa after its last bits have been shifted out. -/
structure Shifted (m k : ℕ) (em : ExtendedMantissa) : Prop where
  mantissa : em.mantissa = m / 2 ^ k
  roundBit : em.roundBit = true ↔ 2 ^ k ≤ 2 * (m % 2 ^ k)
  stickyBit : em.stickyBit = true ↔ 2 * (m % 2 ^ k) ≠ 0 ∧ 2 * (m % 2 ^ k) ≠ 2 ^ k

variable {m k : ℕ} {em : ExtendedMantissa}

theorem Shifted.exact (m : ℕ) :
    Shifted m 0 (ExtendedMantissa.ofMantissaAndAccuracy m .exact) := by
  constructor <;> simp [ExtendedMantissa.ofMantissaAndAccuracy, Nat.mod_one]

theorem Shifted.shiftRightOne (h : Shifted m k em) : Shifted m (k + 1) em.shiftRightOne := by
  have hmod : m % 2 ^ (k + 1) = m % 2 ^ k + 2 ^ k * (m / 2 ^ k % 2) := Nat.mod_pow_succ
  have hlt : m % 2 ^ k < 2 ^ k := Nat.mod_lt _ (by positivity)
  have hpow : 2 ^ (k + 1) = 2 * 2 ^ k := by ring
  constructor
  · simp only [ExtendedMantissa.shiftRightOne, h.mantissa]
    rw [Nat.div_div_eq_div_mul, pow_succ]
  · simp only [ExtendedMantissa.shiftRightOne, h.mantissa, bne_iff_ne]
    rcases Nat.mod_two_eq_zero_or_one (m / 2 ^ k) with hbit | hbit
    · rw [hmod, hbit]; omega
    · rw [hmod, hbit]; omega
  · simp only [ExtendedMantissa.shiftRightOne, Bool.or_eq_true, h.roundBit, h.stickyBit]
    rcases Nat.mod_two_eq_zero_or_one (m / 2 ^ k) with hbit | hbit
    · rw [hmod, hbit]; omega
    · rw [hmod, hbit]; omega

theorem Shifted.shiftRight (m k : ℕ) :
    Shifted m k (ExtendedMantissa.ofMantissaAndAccuracy m .exact >>> k) := by
  induction k with
  | zero => exact .exact m
  | succ k ih => exact ih.shiftRightOne

/-- Rounding errs by half a unit at most. -/
theorem Shifted.near (h : Shifted m k em) :
    2 * m ≤ 2 * (em.roundedMantissa * 2 ^ k) + 2 ^ k ∧
      2 * (em.roundedMantissa * 2 ^ k) ≤ 2 * m + 2 ^ k := by
  have hdiv : m % 2 ^ k + 2 ^ k * (m / 2 ^ k) = m := Nat.mod_add_div m (2 ^ k)
  have hlt : m % 2 ^ k < 2 ^ k := Nat.mod_lt _ (by positivity)
  obtain ⟨q, round, sticky⟩ := em
  obtain ⟨hq, hround, hsticky⟩ := h
  simp only at hq hround hsticky
  have hcomm : q * 2 ^ k = 2 ^ k * (m / 2 ^ k) := by rw [hq, mul_comm]
  have hsucc : (q + 1) * 2 ^ k = 2 ^ k * (m / 2 ^ k) + 2 ^ k := by rw [add_mul, one_mul, hcomm]
  cases round <;> cases sticky <;>
    simp only [ExtendedMantissa.roundedMantissa, ExtendedMantissa.accuracy,
      Accuracy.roundToNearestEven] <;>
    simp only [Bool.false_eq_true, false_iff, true_iff] at hround hsticky
  case false.false => omega
  case false.true => omega
  case true.false =>
    -- A tie goes to the even neighbour, which is as near as the other one.
    rcases Nat.mod_two_eq_zero_or_one q with hbit | hbit
    · rw [hbit, add_zero]
      omega
    · rw [hbit]
      omega
  case true.true => omega

/-- The numbers with mantissas of at most 53 bits and exponents from -1074 on. -/
def Grid : Set ℚ := {v | ∃ (m : ℕ) (e : ℤ), m ≤ 2 ^ 53 ∧ -1074 ≤ e ∧ v = m * 2 ^ e}

/-- A number of the grid than which none is nearer to a given number. -/
structure Nearest (v w : ℚ) : Prop where
  mem : w ∈ Grid
  least : ∀ u ∈ Grid, |w - v| ≤ |u - v|

theorem targetExponent_eq (m : ℕ) (e : ℤ) :
    Format.binary64.targetExponent (totalExponent m e) = max (m.log2 + e - 52) (-1074) := by
  simp only [Format.targetExponent, totalExponent, Format.mantissaBits, Format.minExponent]
  norm_num
  omega

theorem shift_of_lt {q : ℕ} {t : ℤ} (hq : q < 2 ^ 53) (ht : -1074 ≤ t) :
    shiftToTargetExponent Format.binary64 q t .exact = (⟨q, false, false⟩, t) := by
  have hlog : q.log2 ≤ 52 := by
    by_cases hq0 : q = 0
    · simp [hq0]
    · have hlt := (Nat.log2_lt hq0).mpr hq
      omega
  have hshift : (max ((q.log2 : ℤ) + t - 52) (-1074) - t).toNat = 0 := by omega
  rw [shiftToTargetExponent, targetExponent_eq, shiftToExponent, hshift, Nat.cast_zero, add_zero]
  rfl

theorem shift_of_eq {t : ℤ} (ht : -1074 ≤ t) :
    shiftToTargetExponent Format.binary64 (2 ^ 53) t .exact =
      (⟨2 ^ 52, false, false⟩, t + 1) := by
  have hshift : (max (((2 ^ 53 : ℕ).log2 : ℤ) + t - 52) (-1074) - t).toNat = 1 := by
    rw [Nat.log2_two_pow]
    omega
  rw [shiftToTargetExponent, targetExponent_eq, shiftToExponent, hshift, Nat.cast_one]
  rfl

section
variable {v : ℚ} {q : ℕ} {t : ℤ}

/-- A multiple that is half a unit away at most is a nearest multiple. -/
theorem near_multiple (hnear : |q * 2 ^ t - v| ≤ 2 ^ t / 2) (z : ℕ) :
    |q * 2 ^ t - v| ≤ |z * 2 ^ t - v| := by
  by_cases hz : z = q
  · rw [hz]
  have hone : (1 : ℚ) ≤ |(z : ℚ) - q| := by
    have hint : (1 : ℤ) ≤ |(z : ℤ) - q| := Int.one_le_abs (by omega)
    exact_mod_cast hint
  have hunit : (2 : ℚ) ^ t ≤ |(z : ℚ) * 2 ^ t - q * 2 ^ t| := by
    rw [← sub_mul, abs_mul, abs_of_pos (two_zpow_pos t)]
    exact le_mul_of_one_le_left (two_zpow_pos t).le hone
  have htriangle : |(z : ℚ) * 2 ^ t - q * 2 ^ t| ≤ |z * 2 ^ t - v| + |q * 2 ^ t - v| := by
    rw [abs_sub_comm ((q : ℚ) * 2 ^ t) v]
    exact abs_sub_le _ _ _
  linarith

theorem nearest_of_near (hq : q ≤ 2 ^ 53) (ht : -1074 ≤ t)
    (hnear : |q * 2 ^ t - v| ≤ 2 ^ t / 2) (hfull : t = -1074 ∨ 2 ^ 52 * 2 ^ t ≤ v) :
    Nearest v (q * 2 ^ t) := by
  refine ⟨⟨q, t, hq, ht, rfl⟩, ?_⟩
  rintro u ⟨m, e, hm, he, rfl⟩
  by_cases het : t ≤ e
  · have hmultiple : (m : ℚ) * 2 ^ e = (m * 2 ^ (e - t).toNat : ℕ) * 2 ^ t := by
      have hsum : e = ((e - t).toNat : ℤ) + t := by omega
      push_cast
      rw [mul_assoc, ← zpow_natCast, ← two_zpow_add, ← hsum]
    rw [hmultiple]
    exact near_multiple hnear _
  · -- Below the unit of the result the grid ends where the unit begins.
    have hv : 2 ^ 52 * 2 ^ t ≤ v := hfull.resolve_left (by omega)
    have hm' : (m : ℚ) ≤ 2 ^ 53 := by exact_mod_cast hm
    have hpow : (2 : ℚ) ^ e ≤ 2 ^ (t - 1) := zpow_le_zpow_right₀ (by norm_num) (by omega)
    have hu : (m : ℚ) * 2 ^ e ≤ 2 ^ 52 * 2 ^ t := by
      calc (m : ℚ) * 2 ^ e ≤ 2 ^ 53 * 2 ^ (t - 1) :=
            mul_le_mul hm' hpow (two_zpow_pos e).le (by norm_num)
        _ = 2 ^ 52 * 2 ^ t := by rw [two_zpow_eq_double t]; ring
    have hedge : |q * 2 ^ t - v| ≤ |(2 : ℚ) ^ 52 * 2 ^ t - v| := by
      have hmultiple := near_multiple hnear (2 ^ 52)
      rwa [Nat.cast_pow] at hmultiple
    rw [abs_sub_comm _ v, abs_sub_comm _ v] at hedge ⊢
    rw [abs_of_nonneg (sub_nonneg.mpr hv)] at hedge
    rw [abs_of_nonneg (by linarith : 0 ≤ v - m * 2 ^ e)]
    linarith

end

theorem roundWithAccuracy_eq {m q q' : ℕ} {e t t' : ℤ} {em : ExtendedMantissa}
    (hfirst : shiftToTargetExponent Format.binary64 m e .exact = (em, t))
    (hq : em.roundedMantissa = q)
    (hsecond : shiftToTargetExponent Format.binary64 q t .exact = (⟨q', false, false⟩, t')) :
    roundWithAccuracy Format.binary64 .positive m e .exact =
      number q' t' := by
  simp only [roundWithAccuracy, hfirst, hq, hsecond, number]

/-- The shift of a mantissa that leaves at most 53 bits of it, and fewer only above the
smallest exponent. -/
structure Fits (m : ℕ) (e : ℤ) (em : ExtendedMantissa) (t : ℤ) (k : ℕ) : Prop where
  shifted : Shifted m k em
  exponent_eq : e + k = t
  le_exponent : -1074 ≤ t
  mantissa_lt : m < 2 ^ 53 * 2 ^ k
  full : 2 ^ 52 * 2 ^ k ≤ m ∨ t = -1074

/-- The first shift fits unless the mantissa is too short for its exponent. -/
theorem exists_fits {m : ℕ} {e : ℤ} (hm : m ≠ 0) (he : 52 ≤ m.log2 ∨ e ≤ -1074) :
    ∃ em t k, Fits m e em t k ∧ shiftToTargetExponent Format.binary64 m e .exact = (em, t) := by
  obtain ⟨t, ht⟩ : ∃ t, t = max ((m.log2 : ℤ) + e - 52) (-1074) := ⟨_, rfl⟩
  obtain ⟨k, hk⟩ : ∃ k, k = (t - e).toNat := ⟨_, rfl⟩
  have hkt : e + k = t := by omega
  refine ⟨_, t, k, ⟨.shiftRight m k, hkt, by omega, ?_, ?_⟩, ?_⟩
  · calc m < 2 ^ (m.log2 + 1) := Nat.lt_log2_self
      _ ≤ 2 ^ (53 + k) := Nat.pow_le_pow_right (by norm_num) (by omega)
      _ = 2 ^ 53 * 2 ^ k := pow_add _ _ _
  · by_cases hmin : t = -1074
    · exact .inr hmin
    · left
      calc 2 ^ 52 * 2 ^ k = 2 ^ (52 + k) := (pow_add _ _ _).symm
        _ ≤ 2 ^ m.log2 := Nat.pow_le_pow_right (by norm_num) (by omega)
        _ ≤ m := Nat.log2_self_le hm
  · rw [shiftToTargetExponent, targetExponent_eq, ← ht, shiftToExponent, ← hk, hkt]

namespace Fits

variable {m : ℕ} {e t : ℤ} {em : ExtendedMantissa} {k : ℕ}

theorem rounded_le (h : Fits m e em t k) : em.roundedMantissa ≤ 2 ^ 53 := by
  have habove := h.shifted.near.2
  have hlt := h.mantissa_lt
  have hpow : 0 < 2 ^ k := by positivity
  by_contra hgt
  have hmul : (2 ^ 53 + 1) * 2 ^ k ≤ em.roundedMantissa * 2 ^ k :=
    Nat.mul_le_mul_right _ (by omega)
  omega

theorem rounded_full (h : Fits m e em t k) : 2 ^ 52 ≤ em.roundedMantissa ∨ t = -1074 := by
  refine h.full.imp_left fun hfull => ?_
  have hbelow := h.shifted.near.1
  have hpow : 0 < 2 ^ k := by positivity
  by_contra hsmall
  have hmul : (em.roundedMantissa + 1) * 2 ^ k ≤ 2 ^ 52 * 2 ^ k :=
    Nat.mul_le_mul_right _ (by omega)
  rw [add_mul, one_mul] at hmul
  omega

theorem nearest (h : Fits m e em t k) :
    Nearest (m * 2 ^ e) (em.roundedMantissa * 2 ^ t) := by
  have hunit : (2 : ℚ) ^ t = 2 ^ k * 2 ^ e := by
    rw [← h.exponent_eq, two_zpow_add, zpow_natCast, mul_comm]
  have hpos := two_zpow_pos e
  refine nearest_of_near h.rounded_le h.le_exponent ?_ ?_
  · have hbelow : 2 * (m : ℚ) ≤ 2 * (em.roundedMantissa * 2 ^ k) + 2 ^ k := by
      exact_mod_cast h.shifted.near.1
    have habove : 2 * ((em.roundedMantissa : ℚ) * 2 ^ k) ≤ 2 * m + 2 ^ k := by
      exact_mod_cast h.shifted.near.2
    rw [hunit, abs_le]
    constructor
    · nlinarith
    · nlinarith
  · refine h.full.symm.imp_right fun hfull => ?_
    have hfull' : (2 : ℚ) ^ 52 * 2 ^ k ≤ m := by exact_mod_cast hfull
    rw [hunit, ← mul_assoc]
    exact mul_le_mul_of_nonneg_right hfull' hpos.le

end Fits

/-- Rounding gives a nearest number of the grid. -/
theorem exists_roundWithAccuracy_eq {m : ℕ} {e : ℤ} (hm : m ≠ 0)
    (he : 52 ≤ m.log2 ∨ e ≤ -1074) :
    ∃ m' e', Canonical m' e' ∧
      roundWithAccuracy Format.binary64 .positive m e .exact = number m' e' ∧
        Nearest (m * 2 ^ e) (m' * 2 ^ e') := by
  obtain ⟨em, t, k, hfits, hfirst⟩ := exists_fits hm he
  have hmin := hfits.le_exponent
  rcases hfits.rounded_le.lt_or_eq with hlt | heq
  · exact ⟨_, t, ⟨hlt, hmin, hfits.rounded_full⟩,
      roundWithAccuracy_eq hfirst rfl (shift_of_lt hlt hmin), hfits.nearest⟩
  · -- The mantissa has become one bit too long, and that bit is its only one.
    refine ⟨2 ^ 52, t + 1, ⟨by norm_num, by omega, .inl le_rfl⟩,
      roundWithAccuracy_eq hfirst heq (shift_of_eq hmin), ?_⟩
    have hvalue : ((2 ^ 52 : ℕ) : ℚ) * 2 ^ (t + 1) = (2 ^ 53 : ℕ) * 2 ^ t := by
      rw [two_zpow_add]
      norm_num
      ring
    rw [hvalue, ← heq]
    exact hfits.nearest

/-- Rounding lengthens a mantissa that is too short first. -/
theorem exists_round_eq {m : ℕ} (e : ℤ) (hm : m ≠ 0) :
    ∃ m' e', Canonical m' e' ∧
      UnpackedFloat.round Format.binary64 .positive m e = number m' e' ∧
        Nearest (m * 2 ^ e) (m' * 2 ^ e') := by
  obtain ⟨k, hk⟩ : ∃ k, k = (e - max ((m.log2 : ℤ) + e - 52) (-1074)).toNat := ⟨_, rfl⟩
  have hvalue : (m : ℚ) * 2 ^ e = (m * 2 ^ k : ℕ) * 2 ^ (e - k) := by
    have hsum : (2 : ℚ) ^ e = 2 ^ (k : ℤ) * 2 ^ (e - k) := by
      rw [← two_zpow_add]
      congr 1
      omega
    push_cast
    rw [hsum, zpow_natCast, mul_assoc]
  have hlong : 52 ≤ (m * 2 ^ k).log2 ∨ e - k ≤ -1074 := by
    have hlog : m.log2 + k ≤ (m * 2 ^ k).log2 := by
      rw [Nat.le_log2 (by positivity), pow_add]
      exact Nat.mul_le_mul_right _ (Nat.log2_self_le hm)
    omega
  rw [hvalue]
  simp only [UnpackedFloat.round, decreaseExponent, targetExponent_eq, ← hk, Nat.shiftLeft_eq]
  exact exists_roundWithAccuracy_eq (by positivity) hlong

theorem nearest_zero : Nearest 0 ((0 : ℕ) * 2 ^ (-1074 : ℤ)) := by
  refine ⟨⟨0, -1074, by norm_num, le_rfl, rfl⟩, fun u _ => ?_⟩
  simp

/-- Rounding gives a nearest number for every natural one. -/
theorem exists_normalize_eq (n : ℕ) :
    ∃ m e, Canonical m e ∧
      UnpackedFloat.normalize Format.binary64 n 0 .positive = number m e ∧
        Nearest n (m * 2 ^ e) := by
  by_cases hn : n = 0
  · subst hn
    rw [Nat.cast_zero]
    exact ⟨0, -1074, ⟨by norm_num, le_rfl, .inr rfl⟩, rfl, nearest_zero⟩
  · obtain ⟨m, e, hc, hround, hnearest⟩ := exists_round_eq 0 hn
    rw [zpow_zero, mul_one] at hnearest
    have hsign : compare (n : ℤ) 0 = .gt := compare_gt_iff_gt.mpr (by omega)
    refine ⟨m, e, hc, ?_, hnearest⟩
    simp only [UnpackedFloat.normalize, hsign, Int.toNat_natCast, hround]

namespace Nearest

variable {v v' w w' : ℚ}

theorem eq_of_mem (h : Nearest v w) (hv : v ∈ Grid) : w = v := by
  have hle := h.least v hv
  rw [sub_self, abs_zero] at hle
  exact sub_eq_zero.mp (abs_nonpos_iff.mp hle)

/-- Rounding is monotone, however ties are broken. -/
theorem mono (h : Nearest v w) (h' : Nearest v' w') (hlt : v < v') : w ≤ w' := by
  by_contra hgt
  have hw := sq_le_sq.mpr (h.least w' h'.mem)
  have hw' := sq_le_sq.mpr (h'.least w h.mem)
  have hcross : 0 < (v' - v) * (w - w') := mul_pos (sub_pos.mpr hlt) (by linarith)
  nlinarith

/-- A number of the grid that is not below the exact result is not below the rounded one. -/
theorem le_of_le (h : Nearest v w) (hv' : v' ∈ Grid) (hle : v ≤ v') : w ≤ v' := by
  have hnear := (abs_le.mp ((h.least v' hv').trans_eq (abs_of_nonneg (sub_nonneg.mpr hle)))).2
  linarith

/-- A number of the grid that is not above the exact result is not above the rounded one. -/
theorem ge_of_ge (h : Nearest v w) (hv' : v' ∈ Grid) (hle : v' ≤ v) : v' ≤ w := by
  have hnear := (abs_le.mp ((h.least v' hv').trans_eq (abs_of_nonpos (sub_nonpos.mpr hle)))).1
  linarith

/-- A result that loses more than half a unit is rounded down. -/
theorem lt_of_half_lt {m : ℕ} {e : ℤ} (h : Nearest v w) (hm : m ≠ 0)
    (hm' : m ≤ 2 ^ 53) (he : -1074 ≤ e) (hloss : 2 ^ e / 2 < m * 2 ^ e - v) :
    w < m * 2 ^ e := by
  have hpos := two_zpow_pos e
  have hgrid : (m : ℚ) * 2 ^ e ∈ Grid := ⟨m, e, hm', he, rfl⟩
  refine lt_of_le_of_ne (h.le_of_le hgrid (by linarith)) ?_
  rintro rfl
  -- The multiple before it is nearer.
  have hbefore : ((m - 1 : ℕ) : ℚ) * 2 ^ e = m * 2 ^ e - 2 ^ e := by
    rw [Nat.cast_pred (Nat.pos_of_ne_zero hm)]
    ring
  have hnear := h.least _ ⟨m - 1, e, by omega, he, rfl⟩
  rw [hbefore, abs_of_pos (by linarith : 0 < (m : ℚ) * 2 ^ e - v)] at hnear
  rcases abs_cases ((m : ℚ) * 2 ^ e - 2 ^ e - v) with ⟨heq, -⟩ | ⟨heq, -⟩
  · linarith
  · linarith

theorem fall_le (h : Nearest v w) (hv' : v' ∈ Grid) (hle : v ≤ v') :
    v' - w ≤ 2 * (v' - v) := by
  have hnear := h.least v' hv'
  rw [abs_of_nonneg (sub_nonneg.mpr hle)] at hnear
  have hbelow := (abs_le.mp hnear).1
  linarith

end Nearest
end Annealing.Rounding
