import Annealing.Proofs.Decimal.Rounding

/-!
# Values

Every finite number that is not negative has a rational value. Comparisons,
and those of the patterns, are comparisons of values; a product and a word
converted to a number have a value nearest to the exact one. A positive number
without a value is infinite, is above all others and remains so when it is
multiplied.
-/
namespace Annealing.Magnitude

open Float.Model Float.Model.UnpackedFloat Rounding

/-- A number that consists of a mantissa and an exponent. -/
structure Consists (x : Float) (m : ℕ) (e : ℤ) : Prop where
  canonical : Canonical m e
  unpack_eq : x.toModel.unpack = number m e
  toBits_eq : x.toBits.toNat = index m e

/-- A number that is finite and not negative has a value. -/
def HasValue (x : Float) (v : ℚ) : Prop := ∃ m e, Consists x m e ∧ v = m * 2 ^ e

/-- The infinite number above all others. -/
def Unbounded (x : Float) : Prop := x.toModel.unpack = .infinity .positive

namespace Consists

variable {x : Float} {m : ℕ} {e : ℤ}

theorem index_lt (h : Consists x m e) : index m e < 2047 * 2 ^ 52 := by
  obtain ⟨hc, hunpack, hbits⟩ := h
  by_cases hm : m = 0
  · have he := hc.full.resolve_left (by omega)
    simp [index, hm, he]
  · rw [number, dif_neg hm] at hunpack
    rw [← hbits]
    exact toNat_lt_of_unpack_eq_finite hunpack

theorem of_toBits (hc : Canonical m e) (hlt : index m e < 2047 * 2 ^ 52)
    (hx : x.toBits.toNat = index m e) : Consists x m e := by
  have hbits : x.toModel.toBits.toBitVec.toNat = index m e := hx
  obtain ⟨m', e', hc', hindex, hunpack⟩ := exists_unpack_eq_number (hbits.trans_lt hlt)
  obtain ⟨rfl, rfl⟩ := hc.ext_index hc' (hbits.symm.trans hindex)
  exact ⟨hc, hunpack, hx⟩

theorem of_pack (hc : Canonical m e) (hlt : index m e < 2047 * 2 ^ 52)
    (hx : x.toModel = Float.Model.pack (number m e)) : Consists x m e := by
  refine of_toBits hc hlt ?_
  change x.toModel.toBits.toBitVec.toNat = _
  rw [hx]
  exact toNat_pack_number hc hlt

end Consists

theorem exists_consists {x : Float} (h : x.toBits.toNat < 2047 * 2 ^ 52) :
    ∃ m e, Consists x m e := by
  obtain ⟨m, e, hc, hindex, hunpack⟩ := exists_unpack_eq_number (b := x.toBits.toBitVec) h
  exact ⟨m, e, hc, hunpack, hindex⟩

/-- A pattern below that of infinity is kept when it is made a number. -/
theorem toBits_ofBits {a : UInt64} (h : a.toNat < 2047 * 2 ^ 52) : (Float.ofBits a).toBits = a := by
  obtain ⟨m, e, hc, hindex, hunpack⟩ := exists_unpack_eq_number (b := a.toBitVec) h
  have hpack : (Float.ofBits a).toModel = Float.Model.pack (number m e) :=
    congrArg Float.Model.pack hunpack
  have hlt : index m e < 2047 * 2 ^ 52 := hindex ▸ h
  exact UInt64.toNat_inj.mp ((Consists.of_pack hc hlt hpack).toBits_eq.trans hindex.symm)

namespace HasValue

variable {x y : Float} {v w : ℚ}

theorem nonneg (hx : HasValue x v) : 0 ≤ v := by
  obtain ⟨m, e, -, rfl⟩ := hx
  exact mul_nonneg (Nat.cast_nonneg m) (two_zpow_pos e).le

theorem isNaN_eq_false (hx : HasValue x v) : x.isNaN = false := by
  obtain ⟨m, e, hx, -⟩ := hx
  change x.toModel.unpack.isNaN = false
  rw [hx.unpack_eq, number]
  split <;> rfl

theorem mem_grid (hx : HasValue x v) : v ∈ Grid := by
  obtain ⟨m, e, hx, rfl⟩ := hx
  exact ⟨m, e, hx.canonical.mantissa_lt.le, hx.canonical.le_exponent, rfl⟩

theorem lt_iff (hx : HasValue x v) (hy : HasValue y w) : x < y ↔ v < w := by
  obtain ⟨m, e, hx, rfl⟩ := hx
  obtain ⟨m', e', hy, rfl⟩ := hy
  rw [hx.canonical.value_lt_iff hy.canonical, ← hx.canonical.number_lt_iff hy.canonical,
    ← hx.unpack_eq, ← hy.unpack_eq, Comparison.lt_iff, Comparison.unpacked_lt_iff]
  rfl

theorem toBits_lt_iff (hx : HasValue x v) (hy : HasValue y w) :
    x.toBits < y.toBits ↔ v < w := by
  obtain ⟨m, e, hx, rfl⟩ := hx
  obtain ⟨m', e', hy, rfl⟩ := hy
  rw [hx.canonical.value_lt_iff hy.canonical, UInt64.lt_iff_toNat_lt, hx.toBits_eq, hy.toBits_eq]

/-- The next number, if there is a larger one. -/
theorem next (hx : HasValue x v) (hy : HasValue y w) (hlt : v < w) :
    ∃ n, HasValue (.ofBits (x.toBits + 1)) n ∧ v < n ∧ ∀ z u, HasValue z u → v < u → n ≤ u := by
  have hbits := UInt64.lt_iff_toNat_lt.mp ((hx.toBits_lt_iff hy).mpr hlt)
  have hfinite : y.toBits.toNat < 2047 * 2 ^ 52 := by
    obtain ⟨m, e, hy, -⟩ := hy
    exact hy.toBits_eq.trans_lt hy.index_lt
  have hsucc : (x.toBits + 1).toNat = x.toBits.toNat + 1 := by
    rw [UInt64.toNat_add]
    exact Nat.mod_eq_of_lt (by simp; omega)
  have hnext := toBits_ofBits (a := x.toBits + 1) (by omega)
  obtain ⟨m, e, hn⟩ := exists_consists (x := .ofBits (x.toBits + 1)) (by rw [hnext]; omega)
  have hvalue : HasValue (.ofBits (x.toBits + 1)) (m * 2 ^ e) := ⟨m, e, hn, rfl⟩
  refine ⟨m * 2 ^ e, hvalue, ?_, fun z u hz hu => not_lt.mp fun hlt => ?_⟩
  · rw [← hx.toBits_lt_iff hvalue, hnext, UInt64.lt_iff_toNat_lt]
    omega
  · rw [← hz.toBits_lt_iff hvalue, hnext, UInt64.lt_iff_toNat_lt] at hlt
    rw [← hx.toBits_lt_iff hz, UInt64.lt_iff_toNat_lt] at hu
    omega

/-- A result that is packed keeps its value if a number that is not smaller does. -/
theorem of_pack {m m' : ℕ} {e e' : ℤ} (hc : Canonical m e)
    (hx : x.toModel = Float.Model.pack (number m e)) (hc' : Canonical m' e')
    (hlt : index m' e' < 2047 * 2 ^ 52) (hle : (m : ℚ) * 2 ^ e ≤ m' * 2 ^ e') :
    HasValue x (m * 2 ^ e) :=
  ⟨m, e, .of_pack hc (((hc.value_le_iff hc').mp hle).trans_lt hlt) hx, rfl⟩

theorem unique (hx : HasValue x v) (hx' : HasValue x w) : v = w := by
  have hself : ¬ x.toBits < x.toBits := UInt64.lt_irrefl _
  refine le_antisymm ?_ ?_
  · exact not_lt.mp fun hlt => hself ((hx'.toBits_lt_iff hx).mpr hlt)
  · exact not_lt.mp fun hlt => hself ((hx.toBits_lt_iff hx').mpr hlt)

theorem eq (hx : HasValue x v) (hy : HasValue y v) : x = y := by
  obtain ⟨m, e, hx, hv⟩ := hx
  obtain ⟨m', e', hy, hv'⟩ := hy
  have hvalue : (m : ℚ) * 2 ^ e = m' * 2 ^ e' := hv.symm.trans hv'
  have hindex : index m e = index m' e' :=
    le_antisymm ((hx.canonical.value_le_iff hy.canonical).mp hvalue.le)
      ((hy.canonical.value_le_iff hx.canonical).mp hvalue.ge)
  have hbits : x.toModel.toBits = y.toModel.toBits :=
    UInt64.toNat_inj.mp (hx.toBits_eq.trans (hindex.trans hy.toBits_eq.symm))
  rcases x with ⟨⟨x, _⟩⟩
  rcases y with ⟨⟨y, _⟩⟩
  cases hbits
  rfl

theorem lt_of_unbounded (hx : HasValue x v) (hy : Unbounded y) : x < y := by
  obtain ⟨m, e, hx, -⟩ := hx
  rw [Comparison.lt_iff, Comparison.place?, Comparison.place?, hx.unpack_eq, hy,
    unpackedPlace?_number]
  refine ⟨_, rfl, _, rfl, ?_⟩
  split
  · rw [Comparison.place_lt_iff]
    omega
  · rw [Comparison.place_lt_iff]
    omega

theorem zero : HasValue 0.0 0 := by
  refine ⟨0, -1074, .of_toBits ⟨by norm_num, le_rfl, .inr rfl⟩ ?_ ?_, by norm_num⟩
  · decide
  · decide +kernel

theorem one : HasValue 1.0 1 := by
  refine ⟨2 ^ 52, -52, .of_toBits ⟨by norm_num, by norm_num, .inl le_rfl⟩ ?_ ?_, by norm_num⟩
  · decide
  · decide +kernel

theorem le_of_lt_one (hx : HasValue x v) (hlt : x < 1.0) : v ≤ 1 - 2 ^ (-53 : ℤ) := by
  have hv := (hx.lt_iff one).mp hlt
  obtain ⟨m, e, hx, rfl⟩ := hx
  have hone : Canonical (2 ^ 52) (-52) := ⟨by norm_num, by norm_num, .inl le_rfl⟩
  have hmax : Canonical (2 ^ 53 - 1) (-53) := ⟨by norm_num, by norm_num, .inl (by norm_num)⟩
  have hbelow : index m e < index (2 ^ 52) (-52) := by
    rw [← hx.canonical.value_lt_iff hone]
    norm_num at hv ⊢
    exact hv
  have hle : index m e ≤ index (2 ^ 53 - 1) (-53) := by
    simp only [index] at hbelow ⊢
    omega
  refine ((hx.canonical.value_le_iff hmax).mpr hle).trans_eq ?_
  norm_num

end HasValue

/-! ## Positive numbers -/

section
variable {x f : Float} {v u : ℚ}

theorem unpack_zero : (0.0 : Float).toModel.unpack = .zero .positive := by
  obtain ⟨m, e, hzero, hvalue⟩ := HasValue.zero
  have hm : m = 0 := by
    have hpos := two_zpow_pos e
    exact_mod_cast (mul_eq_zero_iff_right hpos.ne').mp hvalue.symm
  rw [hzero.unpack_eq, number, dif_pos hm]

/-- A positive number has a value or is infinite. -/
theorem positive_cases (hx : 0.0 < x) :
    (x.isFinite = true ∧ ∃ v, HasValue x v ∧ 0 < v) ∨ (x.isFinite = false ∧ Unbounded x) := by
  have hplace := Comparison.lt_iff.mp hx
  rw [Comparison.place?, Comparison.place?, unpack_zero] at hplace
  have hfinite : x.isFinite = x.toModel.unpack.isFinite := rfl
  rw [hfinite]
  rcases hu : x.toModel.unpack with ⟨_ | _⟩ | _ | s | ⟨_ | _, m, e, hm⟩
  case infinity.positive => exact .inr ⟨rfl, hu⟩
  case finite.positive =>
    obtain ⟨m, e, hconsists⟩ := exists_consists (toNat_lt_of_unpack_eq_finite hu)
    have hvalue : HasValue x (m * 2 ^ e) := ⟨m, e, hconsists, rfl⟩
    exact .inl ⟨rfl, _, hvalue, (HasValue.zero.lt_iff hvalue).mp hx⟩
  all_goals simp [hu, Comparison.unpackedPlace?, Comparison.place_lt_iff] at hplace

theorem Unbounded.not_lt {y : Float} (hx : Unbounded x) : ¬ x < y := by
  rw [Comparison.lt_iff, Comparison.place?, Comparison.place?, hx]
  rcases y.toModel.unpack with ⟨_ | _⟩ | _ | _ | ⟨_ | _⟩ <;>
    simp [Comparison.unpackedPlace?, Comparison.place_lt_iff]

theorem exists_hasValue_of_lt {y : Float} (hx : 0.0 < x) (hxy : x < y) :
    ∃ v, HasValue x v ∧ 0 < v := by
  rcases positive_cases hx with ⟨-, hvalue⟩ | ⟨-, hunbounded⟩
  · exact hvalue
  · exact absurd hxy hunbounded.not_lt

theorem toModel_mul : (x * f).toModel =
    Float.Model.pack (mul Format.binary64 x.toModel.unpack f.toModel.unpack) := rfl

theorem mantissa_ne_zero {m : ℕ} {e : ℤ} (h : (0 : ℚ) < m * 2 ^ e) : m ≠ 0 := by
  rintro rfl
  simp at h

/-- The operands of a product are long enough for rounding. -/
theorem Canonical.log2_mul {m n : ℕ} {e t : ℤ} (hx : Canonical m e) (hf : Canonical n t)
    (hm : m ≠ 0) (hn : n ≠ 0) : 52 ≤ (m * n).log2 ∨ e + t ≤ -1074 := by
  rw [Nat.le_log2 (Nat.mul_ne_zero hm hn)]
  have hmin := hx.le_exponent
  rcases hx.full with hfull | rfl
  · exact .inl (hfull.trans (Nat.le_mul_of_pos_right m (Nat.pos_of_ne_zero hn)))
  rcases hf.full with hfull | rfl
  · exact .inl (hfull.trans (Nat.le_mul_of_pos_left n (Nat.pos_of_ne_zero hm)))
  · right
    norm_num

theorem exists_mul_eq {m n : ℕ} {e t : ℤ} (hx : Canonical m e) (hf : Canonical n t)
    (hn : n ≠ 0) :
    ∃ m' e', Canonical m' e' ∧
      UnpackedFloat.mul Format.binary64 (number m e) (number n t) = number m' e' ∧
        Nearest (m * 2 ^ e * (n * 2 ^ t)) (m' * 2 ^ e') := by
  by_cases hm : m = 0
  · refine ⟨0, -1074, ⟨by norm_num, le_rfl, .inr rfl⟩, ?_, ?_⟩
    · rw [number, number, dif_pos hm, dif_neg hn]
      rfl
    · rw [hm, Nat.cast_zero, zero_mul, zero_mul]
      exact nearest_zero
  have hproduct : (m : ℚ) * 2 ^ e * (n * 2 ^ t) = (m * n : ℕ) * 2 ^ (e + t) := by
    rw [two_zpow_add]
    push_cast
    ring
  obtain ⟨m', e', hc, hround, hnearest⟩ := exists_roundWithAccuracy_eq (Nat.mul_ne_zero hm hn)
    (hx.log2_mul hf hm hn)
  refine ⟨m', e', hc, ?_, hproduct ▸ hnearest⟩
  rw [number, number, dif_neg hm, dif_neg hn, ← hround]
  rfl

/-- A product with a positive number is finite if some number is not below it. -/
theorem HasValue.mul_of_le {b : Float} {c : ℚ} (hx : HasValue x v) (hf : HasValue f u)
    (hu : 0 < u) (hb : HasValue b c) (hle : v * u ≤ c) :
    ∃ w, HasValue (x * f) w ∧ Nearest (v * u) w := by
  have hgrid := hb.mem_grid
  obtain ⟨m, e, hx, rfl⟩ := hx
  obtain ⟨n, t, hf, rfl⟩ := hf
  obtain ⟨m₀, e₀, hb, rfl⟩ := hb
  obtain ⟨m', e', hc, hround, hnearest⟩ := exists_mul_eq hx.canonical hf.canonical
    (mantissa_ne_zero hu)
  have hle' := hnearest.le_of_le hgrid hle
  refine ⟨_, .of_pack hc ?_ hb.canonical hb.index_lt hle', hnearest⟩
  rw [toModel_mul, hx.unpack_eq, hf.unpack_eq, hround]

/-- A product with a positive number up to one. -/
theorem HasValue.mul (hx : HasValue x v) (hf : HasValue f u) (hu : 0 < u) (hle : u ≤ 1) :
    ∃ w, HasValue (x * f) w ∧ Nearest (v * u) w :=
  hx.mul_of_le hf hu hx (mul_le_of_le_one_right hx.nonneg hle)

/-- Two infinite products are the same. -/
theorem Unbounded.mul_eq (hx : Unbounded x) (hf : HasValue f u) (hu : 0 < u) :
    x * f = .ofModel (.pack (.infinity .positive)) := by
  obtain ⟨m, e, hf, rfl⟩ := hf
  have hproduct : UnpackedFloat.mul Format.binary64 (.infinity .positive) (number m e) =
      .infinity .positive := by
    rw [number, dif_neg (mantissa_ne_zero hu)]
    rfl
  rw [← hproduct, ← hx, ← hf.unpack_eq]
  rfl

theorem Unbounded.mul (hx : Unbounded x) (hf : HasValue f u) (hu : 0 < u) :
    Unbounded (x * f) := by
  rw [hx.mul_eq hf hu]
  rfl

/-- A natural number of 64 bits that is rounded keeps the value. -/
theorem HasValue.of_rounded {n m : ℕ} {e : ℤ} (hn : n < 2 ^ 64) (hc : Canonical m e)
    (hnearest : Nearest n (m * 2 ^ e)) (hx : x.toModel = Float.Model.pack (number m e)) :
    HasValue x (m * 2 ^ e) := by
  have hmax : Canonical (2 ^ 52) 12 := ⟨by norm_num, by norm_num, .inl le_rfl⟩
  refine .of_pack hc hx hmax (by decide) ?_
  refine hnearest.le_of_le ⟨2 ^ 52, 12, by norm_num, by norm_num, rfl⟩ ?_
  have hlt : (n : ℚ) < 2 ^ 64 := by exact_mod_cast hn
  refine hlt.le.trans_eq ?_
  norm_num

/-- A word becomes a nearest number. -/
theorem exists_hasValue_toFloat (n : UInt64) :
    ∃ w, HasValue n.toFloat w ∧ Nearest n.toNat w := by
  obtain ⟨m, e, hc, hround, hnearest⟩ := exists_normalize_eq n.toNat
  refine ⟨_, .of_rounded n.toNat_lt hc hnearest ?_, hnearest⟩
  rw [← hround]
  rfl

end

/-! ## Words -/

/-- A word is at most half of the largest unit away from what it becomes. -/
theorem abs_sub_le_of_nearest {n : ℕ} {w : ℚ} (h : Nearest n w) (hn : n < 2 ^ 64) :
    |w - n| ≤ 2 ^ 10 := by
  obtain ⟨q, hq⟩ : ∃ q, q = (n + 2 ^ 10) / 2 ^ 11 := ⟨_, rfl⟩
  have hbelow : (n : ℚ) ≤ q * 2 ^ 11 + 2 ^ 10 := by
    exact_mod_cast (by omega : n ≤ q * 2 ^ 11 + 2 ^ 10)
  have habove : (q : ℚ) * 2 ^ 11 ≤ n + 2 ^ 10 := by
    exact_mod_cast (by omega : q * 2 ^ 11 ≤ n + 2 ^ 10)
  refine (h.least (q * 2 ^ 11) ⟨q, 11, by omega, by norm_num, by norm_num⟩).trans ?_
  rw [abs_le]
  constructor
  · linarith
  · linarith

theorem natCast_mem_grid {n : ℕ} (hn : n ≤ 2 ^ 53) : (n : ℚ) ∈ Grid :=
  ⟨n, 0, hn, by norm_num, by norm_num⟩

theorem eq_of_nearest {n : ℕ} {w : ℚ} (h : Nearest n w) (hn : n ≤ 2 ^ 53) : w = n :=
  h.eq_of_mem (natCast_mem_grid hn)

/-- Two words become the same number only if they are large and close to each other. -/
theorem toFloat_eq_of_lt {a b : UInt64} (hlt : b < a) (h : ¬ b.toFloat < a.toFloat) :
    a.toFloat = b.toFloat ∧ 2 ^ 53 < a.toNat ∧ a.toNat ≤ b.toNat + 2 ^ 11 := by
  have hnat : b.toNat < a.toNat := UInt64.lt_iff_toNat_lt.mp hlt
  obtain ⟨v, hv, ha⟩ := exists_hasValue_toFloat a
  obtain ⟨w, hw, hb⟩ := exists_hasValue_toFloat b
  obtain rfl : v = w := by
    rw [hw.lt_iff hv] at h
    exact le_antisymm (not_lt.mp h) (hb.mono ha (by exact_mod_cast hnat))
  refine ⟨hv.eq hw, ?_, ?_⟩
  · by_contra hsmall
    have hva := eq_of_nearest ha (by omega)
    have hvb := eq_of_nearest hb (by omega)
    have heq : a.toNat = b.toNat := by exact_mod_cast hva.symm.trans hvb
    omega
  · have hva := (abs_le.mp (abs_sub_le_of_nearest ha a.toNat_lt)).1
    have hvb := (abs_le.mp (abs_sub_le_of_nearest hb b.toNat_lt)).2
    have hle : (a.toNat : ℚ) ≤ b.toNat + 2 ^ 11 := by linarith
    exact_mod_cast hle

end Annealing.Magnitude
