import Annealing.Proofs.Decimal.Values

/-!
# Differences from zero

The difference of zero and a number that is not negative is exact: it is the
number with the other sign. A pattern with a sign never stands for a positive
number, so such a difference is not positive, and a state that weighs nothing
is no better than any other.
-/
namespace Annealing.Magnitude

open Float.Model Float.Model.UnpackedFloat

theorem unpackSign_packComponents (sign : Sign) (exponent : BitVec 11) (mantissa : BitVec 52) :
    unpackSign (packComponents Format.binary64 sign exponent mantissa) = sign.toBitVec := by
  simp only [unpackSign, packComponents, BitVec.extractLsb]
  rw [BitVec.extractLsb'_append_eq_of_le (by decide),
    BitVec.extractLsb'_append_eq_of_le (by decide)]
  cases sign <;> rfl

/-- What is packed with a sign has a place that is not above zero, unless it is a NaN. -/
theorem exists_place_negative_le {exponent : BitVec 11} {mantissa : BitVec 52}
    (h : exponent = -1#11 → mantissa = 0#52) :
    ∃ a ∈ Comparison.unpackedPlace? (UnpackedFloat.unpack Format.binary64
        (packComponents Format.binary64 .negative exponent mantissa)),
      a ≤ Comparison.place 0 0 0 := by
  have hsign : Sign.ofBitVec Sign.negative.toBitVec = .negative := rfl
  simp only [UnpackedFloat.unpack, unpackSign_packComponents, unpackMantissa_packComponents,
    unpackExponent_packComponents, hsign]
  split
  case isTrue hones =>
    rw [if_pos (h hones)]
    exact ⟨_, rfl, Comparison.place_le_iff.mpr (.inl (by decide))⟩
  case isFalse =>
    split
    case isTrue =>
      split
      case isTrue => exact ⟨_, rfl, le_rfl⟩
      case isFalse => exact ⟨_, rfl, Comparison.place_le_iff.mpr (.inl (by decide))⟩
    case isFalse => exact ⟨_, rfl, Comparison.place_le_iff.mpr (.inl (by decide))⟩

theorem exists_place_pack_negative_le {m : ℕ} (e : ℤ) (hm : 0 < m) :
    ∃ a ∈ Comparison.unpackedPlace? (UnpackedFloat.unpack Format.binary64
        (UnpackedFloat.pack Format.binary64 (.finite .negative m e hm))),
      a ≤ Comparison.place 0 0 0 := by
  simp only [UnpackedFloat.pack]
  split
  case isTrue => exact exists_place_negative_le fun _ => rfl
  case isFalse hfinite =>
    split
    case isTrue =>
      refine exists_place_negative_le fun hones => ?_
      -- The exponent of all ones belongs to infinity, and this one is below it.
      have hexponent := congrArg BitVec.toNat hones
      rw [BitVec.toNat_ofNat, show (-1#11).toNat = 2047 by decide] at hexponent
      have hbits : Format.binary64.exponentBits = 11 := rfl
      omega
    case isFalse => exact exists_place_negative_le fun hones => absurd hones (by decide)

theorem HasValue.zero_sub_le {x : Float} {v : ℚ} (hx : HasValue x v) : 0.0 - x ≤ 0.0 := by
  obtain ⟨m, e, hx, rfl⟩ := hx
  have hsub : (0.0 - x).toModel = Float.Model.pack
      (sub Format.binary64 (0.0 : Float).toModel.unpack x.toModel.unpack) := rfl
  rw [Comparison.le_iff, Comparison.place?, Comparison.place?, hsub, unpack_zero, hx.unpack_eq,
    number]
  split
  case isTrue => exact ⟨_, rfl, _, rfl, le_rfl⟩
  case isFalse hm =>
    obtain ⟨a, ha, hle⟩ := exists_place_pack_negative_le e (Nat.pos_of_ne_zero hm)
    exact ⟨a, ha, _, rfl, hle⟩

theorem toFloat_zero : UInt64.toFloat 0 = 0.0 := by decide +kernel

/-- Nothing is lost by a move from weight zero. -/
theorem toFloat_zero_sub_le (n : UInt64) : UInt64.toFloat 0 - n.toFloat ≤ 0.0 := by
  obtain ⟨v, hv, -⟩ := exists_hasValue_toFloat n
  rw [toFloat_zero]
  exact hv.zero_sub_le

end Annealing.Magnitude
