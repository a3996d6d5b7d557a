import Annealing.Proofs.Decimal.Values

/-!
# Natural numbers

A natural number of 64 bits becomes a nearest binary64 number. Up to 53 bits it
becomes itself, as a word does, and is multiplied by one; a longer one is
rounded. Five times such a number is finite as well.
-/
namespace Annealing.Magnitude

open Float.Model Float.Model.UnpackedFloat Rounding

/-- The value of a number whose pattern has a full mantissa. -/
theorem hasValue_of_toBits {x : Float} {m : ℕ} {e : ℤ} {v : ℚ} (hfull : 2 ^ 52 ≤ m)
    (hm : m < 2 ^ 53) (he : -1074 ≤ e) (hlt : index m e < 2047 * 2 ^ 52)
    (hx : x.toBits.toNat = index m e) (hv : v = m * 2 ^ e) : HasValue x v :=
  ⟨m, e, .of_toBits ⟨hm, he, .inl hfull⟩ hlt hx, hv⟩

theorem hasValue_oneBits : HasValue (.ofBits 0x3FF0000000000000) 1 :=
  hasValue_of_toBits (m := 2 ^ 52) (e := -52) le_rfl (by norm_num) (by norm_num) (by decide)
    (by decide +kernel) (by norm_num)

theorem hasValue_four : HasValue 4.0 4 :=
  hasValue_of_toBits (m := 2 ^ 52) (e := -50) le_rfl (by norm_num) (by norm_num) (by decide)
    (by decide +kernel) (by norm_num)

theorem hasValue_five : HasValue 5.0 5 :=
  hasValue_of_toBits (m := 5 * 2 ^ 50) (e := -50) (by norm_num) (by norm_num) (by norm_num)
    (by decide) (by decide +kernel) (by norm_num)

theorem hasValue_eight : HasValue 8.0 8 :=
  hasValue_of_toBits (m := 2 ^ 52) (e := -49) le_rfl (by norm_num) (by norm_num) (by decide)
    (by decide +kernel) (by norm_num)

/-- A number that no word multiplied by five reaches. -/
theorem hasValue_large : HasValue (.ofBits 0x4420000000000000) (2 ^ 67) :=
  hasValue_of_toBits (m := 2 ^ 52) (e := 15) le_rfl (by norm_num) (by norm_num) (by decide)
    (by decide +kernel) (by norm_num)

variable {n : ℕ}

theorem ofNat_of_lt (hn : n < 2 ^ 53) :
    Float.ofNat n = n.toUInt64.toFloat * .ofBits 0x3FF0000000000000 := by
  have hfast : n < 2 ^ 53 ∧ 0 ≤ 22 := ⟨hn, by omega⟩
  change Float.ofScientific n false 0 = _
  unfold Float.ofScientific
  rw [dif_pos hfast]
  rfl

theorem toModel_ofNat_of_le (hn : 2 ^ 53 ≤ n) : (Float.ofNat n).toModel =
    Float.Model.pack (roundWithAccuracy Format.binary64 .positive (n <<< 53) (-53) .exact) := by
  have hslow : ¬ (n < 2 ^ 53 ∧ 0 ≤ 22) := by omega
  have hne : n ≠ 0 := by omega
  have hsmall : ¬ (0 : ℤ) < -((2 ^ Format.binary64.exponentBits : ℤ) + n.log2) := by
    have hpos : (0 : ℤ) ≤ 2 ^ Format.binary64.exponentBits := by positivity
    omega
  change (Float.ofScientific n false 0).toModel = _
  unfold Float.ofScientific
  rw [dif_neg hslow]
  change Float.Model.pack (UnpackedFloat.ofScientific Format.binary64 n 0) = _
  unfold UnpackedFloat.ofScientific
  rw [dif_neg hne, if_neg (by decide), if_neg hsmall, if_pos le_rfl]
  change Float.Model.pack
    (roundWithAccuracy Format.binary64 .positive (n <<< 53 * 1) (-53) .exact) = _
  rw [mul_one]

/-- A natural number of 64 bits becomes a nearest number. -/
theorem exists_hasValue_ofNat (hn : n < 2 ^ 64) :
    ∃ w, HasValue (Float.ofNat n) w ∧ Nearest n w := by
  by_cases hsmall : n < 2 ^ 53
  · obtain ⟨w, hw, hnearest⟩ := exists_hasValue_toFloat n.toUInt64
    have hword : n.toUInt64.toNat = n := UInt64.toNat_ofNat_of_lt' (by simpa using hn)
    rw [hword] at hnearest
    obtain rfl := eq_of_nearest hnearest hsmall.le
    rw [ofNat_of_lt hsmall]
    obtain ⟨w', hw', hnearest'⟩ := hw.mul hasValue_oneBits one_pos le_rfl
    rw [mul_one] at hnearest'
    exact ⟨w', hw', hnearest'⟩
  · have hle : 2 ^ 53 ≤ n := not_lt.mp hsmall
    have hshift : n <<< 53 ≠ 0 := by
      rw [Nat.shiftLeft_eq]
      positivity
    have hlog : 52 ≤ (n <<< 53).log2 := by
      rw [Nat.le_log2 hshift, Nat.shiftLeft_eq]
      omega
    have hvalue : ((n <<< 53 : ℕ) : ℚ) * 2 ^ (-53 : ℤ) = n := by
      rw [Nat.shiftLeft_eq]
      push_cast
      rw [mul_assoc]
      norm_num
    obtain ⟨m, e, hc, hround, hnearest⟩ := exists_roundWithAccuracy_eq hshift (.inl hlog)
    rw [hvalue] at hnearest
    refine ⟨_, .of_rounded hn hc hnearest ?_, hnearest⟩
    rw [toModel_ofNat_of_le hle, hround]

theorem exists_hasValue_five_mul (hpos : 0 < n) (hn : n < 2 ^ 64) :
    ∃ v, HasValue (5.0 * Float.ofNat n) v := by
  obtain ⟨w, hw, hnearest⟩ := exists_hasValue_ofNat hn
  have hone : (1 : ℚ) ≤ w := by
    refine hnearest.ge_of_ge ?_ (by exact_mod_cast hpos)
    exact_mod_cast natCast_mem_grid (n := 1) (by norm_num)
  have hle : w ≤ 2 ^ 64 := by
    refine hnearest.le_of_le ⟨2 ^ 52, 12, by norm_num, by norm_num, by norm_num⟩ ?_
    exact_mod_cast hn.le
  have hbound : 5 * w ≤ 2 ^ 67 := by linarith
  obtain ⟨v, hv, -⟩ := hasValue_five.mul_of_le hw (one_pos.trans_le hone) hasValue_large hbound
  exact ⟨v, hv⟩

end Annealing.Magnitude
