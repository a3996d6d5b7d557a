import Annealing.Proofs.Decimal.Comparison

/-!
# Packed numbers

A finite number that is not negative is a mantissa times a power of two. With
its exponent in the upper bits and its mantissa, less the leading bit, in the
lower ones, the pattern of such a number is its index among all of them. So
patterns, places and values are in the same order.
-/
namespace Annealing.Magnitude

open Float.Model Float.Model.UnpackedFloat

/-- All bits of the mantissa are used unless the exponent is the smallest one. -/
structure Canonical (m : ℕ) (e : ℤ) : Prop where
  mantissa_lt : m < 2 ^ 53
  le_exponent : -1074 ≤ e
  full : 2 ^ 52 ≤ m ∨ e = -1074

/-- The unpacked number with a mantissa and an exponent. -/
def number (m : ℕ) (e : ℤ) : UnpackedFloat :=
  if h : m = 0 then .zero .positive else .finite .positive m e (Nat.pos_of_ne_zero h)

/-- The number of smaller numbers that are not negative. -/
def index (m : ℕ) (e : ℤ) : ℕ := (e + 1074).toNat * 2 ^ 52 + m

theorem unpackedPlace?_number (m : ℕ) (e : ℤ) : Comparison.unpackedPlace? (number m e) =
    some (if m = 0 then Comparison.place 0 0 0 else Comparison.place 1 e m) := by
  unfold number
  split
  · rfl
  · rfl

theorem two_zpow_pos (t : ℤ) : (0 : ℚ) < 2 ^ t := zpow_pos (by norm_num) t

theorem two_zpow_add (s t : ℤ) : (2 : ℚ) ^ (s + t) = 2 ^ s * 2 ^ t :=
  zpow_add₀ (by norm_num) s t

theorem two_zpow_eq_double (t : ℤ) : (2 : ℚ) ^ t = 2 * 2 ^ (t - 1) := by
  rw [← zpow_one_add₀ (by norm_num)]
  congr 1
  omega

namespace Canonical

variable {m m' : ℕ} {e e' : ℤ}

theorem ext_index (h : Canonical m e) (h' : Canonical m' e') (heq : index m e = index m' e') :
    m = m' ∧ e = e' := by
  obtain ⟨hlt, hmin, hfull⟩ := h
  obtain ⟨hlt', hmin', hfull'⟩ := h'
  simp only [index] at heq
  omega

theorem value_lt (h : Canonical m e) (h' : Canonical m' e') (hlt : index m e < index m' e') :
    (m : ℚ) * 2 ^ e < m' * 2 ^ e' := by
  obtain ⟨hm, hmin, hfull⟩ := h
  obtain ⟨hm', hmin', hfull'⟩ := h'
  simp only [index] at hlt
  by_cases he : e = e'
  · subst he
    have hmm' : (m : ℚ) < m' := by exact_mod_cast (by omega : m < m')
    exact mul_lt_mul_of_pos_right hmm' (two_zpow_pos e)
  · have he' : e + 1 ≤ e' := by omega
    have hleft : (m : ℚ) < 2 ^ 53 := by exact_mod_cast hm
    have hright : (2 : ℚ) ^ 52 ≤ m' := by exact_mod_cast hfull'.resolve_right (by omega)
    calc (m : ℚ) * 2 ^ e < 2 ^ 53 * 2 ^ e := mul_lt_mul_of_pos_right hleft (two_zpow_pos e)
      _ = 2 ^ 52 * 2 ^ (e + 1) := by rw [two_zpow_add]; ring
      _ ≤ 2 ^ 52 * 2 ^ e' := by gcongr; norm_num
      _ ≤ m' * 2 ^ e' := by gcongr

theorem value_lt_iff (h : Canonical m e) (h' : Canonical m' e') :
    (m : ℚ) * 2 ^ e < m' * 2 ^ e' ↔ index m e < index m' e' := by
  refine ⟨fun hlt => ?_, h.value_lt h'⟩
  by_contra hle
  rcases (not_lt.mp hle).lt_or_eq with hgt | heq
  · exact lt_asymm hlt (h'.value_lt h hgt)
  · obtain ⟨rfl, rfl⟩ := h'.ext_index h heq
    exact lt_irrefl _ hlt

theorem value_le_iff (h : Canonical m e) (h' : Canonical m' e') :
    (m : ℚ) * 2 ^ e ≤ m' * 2 ^ e' ↔ index m e ≤ index m' e' := by
  rw [← not_lt, h'.value_lt_iff h, not_lt]

/-- The order of the places is that of the indices. -/
theorem number_lt_iff (h : Canonical m e) (h' : Canonical m' e') :
    (number m e).lt (number m' e') = true ↔ index m e < index m' e' := by
  obtain ⟨hlt, hmin, hfull⟩ := h
  obtain ⟨hlt', hmin', hfull'⟩ := h'
  simp only [Comparison.unpacked_lt_iff, unpackedPlace?_number, Option.mem_some_iff,
    exists_eq_left', index]
  by_cases hm : m = 0
  · by_cases hm' : m' = 0
    · rw [if_pos hm, if_pos hm', Comparison.place_lt_iff]
      omega
    · rw [if_pos hm, if_neg hm', Comparison.place_lt_iff]
      omega
  · by_cases hm' : m' = 0
    · rw [if_neg hm, if_pos hm', Comparison.place_lt_iff]
      omega
    · rw [if_neg hm, if_neg hm', Comparison.place_lt_iff]
      omega

end Canonical

/-! ## Packing -/

theorem toNat_packComponents (exponent : BitVec 11) (mantissa : BitVec 52) :
    (packComponents Format.binary64 .positive exponent mantissa).toNat =
      exponent.toNat * 2 ^ 52 + mantissa.toNat := by
  change ((0#1 ++ exponent) ++ mantissa).toNat = _
  rw [BitVec.toNat_append, ← Nat.shiftLeft_add_eq_or_of_lt mantissa.isLt, Nat.shiftLeft_eq,
    BitVec.toNat_append, ← Nat.shiftLeft_add_eq_or_of_lt exponent.isLt]
  simp

theorem log2_eq_iff_full {m : ℕ} (hm : m ≠ 0) (h : m < 2 ^ 53) :
    m.log2 + 1 = 53 ↔ 2 ^ 52 ≤ m := by
  rw [← Nat.le_log2 hm]
  have hlt := (Nat.log2_lt hm).mpr h
  omega

/-- The pattern of a number below infinity. -/
theorem toNat_pack_number {m : ℕ} {e : ℤ} (h : Canonical m e)
    (hfinite : index m e < 2047 * 2 ^ 52) :
    (UnpackedFloat.pack Format.binary64 (number m e)).toNat = index m e := by
  obtain ⟨hlt, hmin, hfull⟩ := h
  by_cases hm : m = 0
  · subst hm
    obtain rfl : e = -1074 := hfull.resolve_left (by norm_num)
    rw [number, dif_pos rfl]
    rfl
  have hbiased : (e + (Format.binary64.exponentBias : ℕ) + (52 : ℕ)).toNat = (e + 1075).toNat := by
    change (e + 1023 + 52).toNat = _
    omega
  simp only [index] at hfinite
  rw [number, dif_neg hm]
  simp only [UnpackedFloat.pack, hbiased]
  rw [if_neg (by norm_num; omega)]
  change (if m.log2 + 1 = 53 then _ else _ : BitVec 64).toNat = _
  rw [apply_ite BitVec.toNat, toNat_packComponents, toNat_packComponents]
  simp only [BitVec.toNat_ofNat, index, log2_eq_iff_full hm hlt]
  split
  · omega
  · omega

/-! ## Unpacking -/

section
variable (b : BitVec 64)

theorem toNat_unpackMantissa :
    (@unpackMantissa Format.binary64 b).toNat = b.toNat % 2 ^ 52 := by
  simp [unpackMantissa]

theorem toNat_unpackExponent :
    (@unpackExponent Format.binary64 b).toNat = b.toNat / 2 ^ 52 % 2 ^ 11 := by
  simp [unpackExponent, Nat.shiftRight_eq_div_pow]

theorem toNat_unpackSign :
    (@unpackSign Format.binary64 b).toNat = b.toNat / 2 ^ 63 := by
  have hbit : (@unpackSign Format.binary64 b).toNat = b.toNat / 2 ^ 63 % 2 := by
    simp [unpackSign, Nat.shiftRight_eq_div_pow]
  have hlt := b.isLt
  rw [hbit]
  omega

end

theorem toNat_implicit (mantissa : BitVec 52) :
    (1#1 ++ mantissa).toNat = 2 ^ 52 + mantissa.toNat := by
  rw [BitVec.toNat_append, ← Nat.shiftLeft_add_eq_or_of_lt mantissa.isLt]
  rfl

theorem unpackExponent_eq_iff (b : BitVec 64) {n : ℕ} (hn : n < 2 ^ 11) :
    @unpackExponent Format.binary64 b = BitVec.ofNat 11 n ↔
      b.toNat / 2 ^ 52 % 2 ^ 11 = n := by
  rw [← BitVec.toNat_inj, toNat_unpackExponent, BitVec.toNat_ofNat, Nat.mod_eq_of_lt hn]

theorem unpackExponent_eq_ones_iff (b : BitVec 64) :
    @unpackExponent Format.binary64 b = -1#11 ↔ b.toNat / 2 ^ 52 % 2 ^ 11 = 2047 :=
  @unpackExponent_eq_iff b 2047 (by norm_num)

/-- The patterns below that of infinity are those of the finite numbers. -/
theorem exists_unpack_eq_number {b : BitVec 64} (h : b.toNat < 2047 * 2 ^ 52) :
    ∃ m e, Canonical m e ∧ b.toNat = index m e ∧
      UnpackedFloat.unpack Format.binary64 b = number m e := by
  have hsign : Sign.ofBitVec (@unpackSign Format.binary64 b) = .positive := by
    have hzero : @unpackSign Format.binary64 b = 0#1 := by
      rw [← BitVec.toNat_inj, toNat_unpackSign]
      exact Nat.div_eq_of_lt (by omega)
    rw [hzero]
    rfl
  have hfinite : ¬ @unpackExponent Format.binary64 b = -1#11 := by
    rw [unpackExponent_eq_ones_iff]
    omega
  have hmantissa := toNat_unpackMantissa b
  have hexponent := toNat_unpackExponent b
  have hbias : (Format.binary64.exponentBias : ℤ) + (52 : ℕ) = 1075 := by decide
  simp only [UnpackedFloat.unpack, hsign, hbias]
  rw [if_neg hfinite]
  by_cases hzero : @unpackExponent Format.binary64 b = 0#11
  · have hsmall : b.toNat < 2 ^ 52 := by
      rw [hzero, BitVec.toNat_zero] at hexponent
      omega
    rw [Nat.mod_eq_of_lt hsmall] at hmantissa
    refine ⟨b.toNat, -1074, ⟨by omega, le_rfl, .inr rfl⟩, by simp [index], ?_⟩
    rw [if_pos hzero]
    simp only [number, ← BitVec.toNat_inj, hmantissa, hzero]
    rfl
  · have hnormal : b.toNat / 2 ^ 52 % 2 ^ 11 ≠ 0 := by
      rwa [Ne, ← unpackExponent_eq_iff b (by norm_num)]
    refine ⟨2 ^ 52 + b.toNat % 2 ^ 52, (b.toNat / 2 ^ 52 % 2 ^ 11 : ℕ) - 1075,
      ⟨by omega, by omega, by omega⟩, by simp only [index]; omega, ?_⟩
    rw [if_neg hzero, number, dif_neg (by omega)]
    simp only [toNat_implicit, hmantissa, hexponent]

/-- The pattern of a finite positive number is below that of infinity. -/
theorem toNat_lt_of_unpack_eq_finite {b : BitVec 64} {m : ℕ} {e : ℤ} {hm : 0 < m}
    (h : UnpackedFloat.unpack Format.binary64 b = .finite .positive m e hm) :
    b.toNat < 2047 * 2 ^ 52 := by
  have hlt := b.isLt
  by_contra hge
  by_cases hsign : b.toNat < 2 ^ 63
  · have hexponent : @unpackExponent Format.binary64 b = -1#11 :=
      (unpackExponent_eq_ones_iff b).mpr (by omega)
    simp only [UnpackedFloat.unpack] at h
    rw [if_pos hexponent] at h
    split at h <;> cases h
  · have hnegative : Sign.ofBitVec (@unpackSign Format.binary64 b) = .negative := by
      rw [Sign.ofBitVec, if_neg]
      rw [← BitVec.toNat_inj, toNat_unpackSign]
      change ¬ b.toNat / 2 ^ 63 = 0
      omega
    simp only [UnpackedFloat.unpack, hnegative] at h
    split at h
    · split at h <;> cases h
    · split at h
      · split at h <;> cases h
      · cases h

end Annealing.Magnitude
