import Annealing.Proofs.Attempts
import Annealing.Timing.Summary
import Mathlib.Algebra.Order.BigOperators.Group.List
import Mathlib.Algebra.Order.Ring.Nat
import Mathlib.Order.Bounds.Basic

/-!
# Statistics of samples

The least and the greatest sample of a stopwatch are samples themselves, and
all samples lie between them. The same then holds of their mean, although it
is rounded down. None of the three depends on the order in which the samples
were taken, and without samples there are none. The mean is missing only at a
multiple of 2 ^ 32 samples, where their number is zero as a word.
-/
namespace Annealing

namespace Stopwatch

variable {w w' : Stopwatch} {d : Duration}

/-! ## The least and the greatest sample -/

theorem minimum?_eq_some_iff : w.minimum? = some d ↔ IsLeast {d | d ∈ w.samples} d := by
  simp only [minimum?, List.min?_eq_some_iff, Array.mem_toList_iff]
  rfl

theorem maximum?_eq_some_iff : w.maximum? = some d ↔ IsGreatest {d | d ∈ w.samples} d := by
  simp only [maximum?, List.max?_eq_some_iff, Array.mem_toList_iff]
  rfl

theorem exists_minimum? (h : w.samples ≠ #[]) : ∃ d, w.minimum? = some d :=
  Option.isSome_iff_exists.mp (List.isSome_min?_of_ne_nil (mt Array.toList_eq_nil_iff.mp h))

theorem exists_maximum? (h : w.samples ≠ #[]) : ∃ d, w.maximum? = some d :=
  Option.isSome_iff_exists.mp (List.isSome_max?_of_ne_nil (mt Array.toList_eq_nil_iff.mp h))

/-! ## The mean -/

/-- The number of samples enters as a 32-bit word. -/
theorem average?_eq (h : w.samples ≠ #[]) :
    w.average? = if 2 ^ 32 ∣ w.samples.size then .error .divisionByZero
      else .ok (some (w.samples.sum / (w.samples.size % 2 ^ 32))) := by
  have hne : ¬ w.samples.isEmpty = true := by simpa using h
  have hword : UInt32.ofNat w.samples.size = 0 ↔ 2 ^ 32 ∣ w.samples.size := by
    rw [← UInt32.toNat_inj, UInt32.toNat_ofNat', UInt32.toNat_zero, Nat.dvd_iff_mod_eq_zero]
  rw [average?, if_neg hne, Duration.divide, ← List.sum_eq_foldl, Array.sum_toList,
    UInt32.toNat_ofNat']
  simp only [hword]
  split <;> rfl

theorem average?_eq_of_size_lt (h : w.samples ≠ #[]) (hsize : w.samples.size < 2 ^ 32) :
    w.average? = .ok (some (w.samples.sum / w.samples.size)) := by
  have hpos : 0 < w.samples.size := Array.size_pos_iff.mpr h
  rw [average?_eq h, if_neg (Nat.not_dvd_of_pos_of_lt hpos hsize), Nat.mod_eq_of_lt hsize]

theorem le_mean (h : w.samples ≠ #[]) (hd : d ∈ lowerBounds {d | d ∈ w.samples}) :
    d ≤ w.samples.sum / w.samples.size := by
  have hpos : 0 < w.samples.size := Array.size_pos_iff.mpr h
  have hsum : w.samples.toList.length • d ≤ w.samples.toList.sum :=
    List.card_nsmul_le_sum _ _ fun x hx => hd (Array.mem_toList_iff.mp hx)
  rw [Array.length_toList, Array.sum_toList, nsmul_eq_mul, Nat.cast_id, mul_comm] at hsum
  -- rounding down does not go below a whole number
  exact (Nat.le_div_iff_mul_le hpos).mpr hsum

theorem mean_le (hd : d ∈ upperBounds {d | d ∈ w.samples}) :
    w.samples.sum / w.samples.size ≤ d := by
  have hsum : w.samples.toList.sum ≤ w.samples.toList.length • d :=
    List.sum_le_card_nsmul _ _ fun x hx => hd (Array.mem_toList_iff.mp hx)
  rw [Array.length_toList, Array.sum_toList, nsmul_eq_mul, Nat.cast_id] at hsum
  exact Nat.div_le_of_le_mul hsum

/-! ## Samples in another order -/

theorem mem_samples_of_perm (h : w'.samples.Perm w.samples) :
    {d | d ∈ w'.samples} = {d | d ∈ w.samples} := by
  ext d
  exact h.mem_iff

theorem minimum?_of_perm (h : w'.samples.Perm w.samples) : w'.minimum? = w.minimum? := by
  ext d
  rw [minimum?_eq_some_iff, minimum?_eq_some_iff, mem_samples_of_perm h]

theorem maximum?_of_perm (h : w'.samples.Perm w.samples) : w'.maximum? = w.maximum? := by
  ext d
  rw [maximum?_eq_some_iff, maximum?_eq_some_iff, mem_samples_of_perm h]

theorem average?_of_perm (h : w'.samples.Perm w.samples) : w'.average? = w.average? := by
  have hsize : w'.samples.size = w.samples.size := h.size_eq
  have hempty : w'.samples.isEmpty = w.samples.isEmpty := by
    rw [Bool.eq_iff_iff, Array.isEmpty_iff_size_eq_zero, Array.isEmpty_iff_size_eq_zero, hsize]
  have hsum : w'.samples.toList.foldl (· + ·) 0 = w.samples.toList.foldl (· + ·) 0 :=
    h.toList.foldl_eq 0
  rw [average?, average?, hempty, hsize, hsum]

end Stopwatch

namespace Timing

variable {size : Float} {w w' : Stopwatch}

theorem Summary.size_eq_of_mem {timing? : Option Summary} (h : Summary.of? size w = .ok timing?) :
    ∀ summary ∈ timing?, summary.size = size := by
  obtain ⟨average?, -, rfl⟩ := map_eq_ok_iff.mp h
  intro summary hsummary
  split at hsummary
  · cases hsummary
    rfl
  · cases hsummary

theorem Summary.of?_of_perm (h : w'.samples.Perm w.samples) :
    Summary.of? size w' = Summary.of? size w := by
  rw [of?, of?, Stopwatch.average?_of_perm h, Stopwatch.minimum?_of_perm h,
    Stopwatch.maximum?_of_perm h]

/-- A summary of samples: their mean, rounded down, and two of them that bound the others and the
mean. -/
structure Summary.Describes (summary : Summary) (size : Float) (samples : Array Duration) :
    Prop where
  size_eq : summary.size = size
  average_eq : summary.average = samples.sum / samples.size
  isLeast : IsLeast {d | d ∈ samples} summary.minimum
  isGreatest : IsGreatest {d | d ∈ samples} summary.maximum
  minimum_le : summary.minimum ≤ summary.average
  le_maximum : summary.average ≤ summary.maximum

/-- A stopwatch with samples, fewer than 2 ^ 32, has a mean, a least and a greatest sample, with
the mean in between; no division by zero is met. They are the same for the samples in any other
order, and a stopwatch without samples has none of them. -/
theorem statistics_ordered (w : Stopwatch) (size : Float) :
    (w.samples = #[] → w.average? = .ok none ∧ w.minimum? = none ∧ w.maximum? = none ∧
      Summary.of? size w = .ok none) ∧
    (w.samples ≠ #[] → w.samples.size < 2 ^ 32 → ∃ summary : Summary,
      summary.Describes size w.samples ∧ w.average? = .ok (some summary.average) ∧
        w.minimum? = some summary.minimum ∧ w.maximum? = some summary.maximum ∧
        Summary.of? size w = .ok (some summary)) ∧
    ∀ w' : Stopwatch, w'.samples.Perm w.samples →
      w'.average? = w.average? ∧ w'.minimum? = w.minimum? ∧ w'.maximum? = w.maximum? ∧
        Summary.of? size w' = Summary.of? size w := by
  refine ⟨?_, ?_, ?_⟩
  · intro h
    have haverage : w.average? = .ok none := by rw [Stopwatch.average?, h]; rfl
    have hminimum : w.minimum? = none := by rw [Stopwatch.minimum?, h]; rfl
    have hmaximum : w.maximum? = none := by rw [Stopwatch.maximum?, h]; rfl
    exact ⟨haverage, hminimum, hmaximum, by rw [Summary.of?, haverage]; rfl⟩
  · intro h hsize
    have haverage := Stopwatch.average?_eq_of_size_lt h hsize
    obtain ⟨least, hminimum⟩ := Stopwatch.exists_minimum? h
    obtain ⟨greatest, hmaximum⟩ := Stopwatch.exists_maximum? h
    have hleast := Stopwatch.minimum?_eq_some_iff.mp hminimum
    have hgreatest := Stopwatch.maximum?_eq_some_iff.mp hmaximum
    refine ⟨⟨size, w.samples.sum / w.samples.size, least, greatest⟩, ?_, haverage, hminimum,
      hmaximum, by rw [Summary.of?, haverage, hminimum, hmaximum]; rfl⟩
    exact ⟨rfl, rfl, hleast, hgreatest, Stopwatch.le_mean h hleast.2,
      Stopwatch.mean_le hgreatest.2⟩
  · intro w' h
    exact ⟨Stopwatch.average?_of_perm h, Stopwatch.minimum?_of_perm h,
      Stopwatch.maximum?_of_perm h, Summary.of?_of_perm h⟩

/-- Three samples whose sum is not a multiple of three. -/
def unevenWatch : Stopwatch := { samples := #[30, 10, 21] }

theorem statistics_ordered_unevenWatch :
    (∃ summary : Summary, summary.Describes 1.0 unevenWatch.samples ∧ summary.average = 20 ∧
      unevenWatch.average? = .ok (some 20) ∧ unevenWatch.minimum? = some 10 ∧
      unevenWatch.maximum? = some 30) ∧
    Stopwatch.average? { samples := #[10, 21, 30] } = unevenWatch.average? ∧
    Stopwatch.average? {} = .ok none := by
  obtain ⟨-, hsome, hperm⟩ := statistics_ordered unevenWatch 1.0
  obtain ⟨hnone, -⟩ := statistics_ordered {} 1.0
  obtain ⟨summary, hdescribes, -⟩ := hsome (by decide) (by decide)
  have horder := hperm { samples := #[10, 21, 30] } ⟨by decide⟩
  exact ⟨⟨summary, hdescribes, hdescribes.average_eq, by decide, by decide, by decide⟩, horder.1,
    (hnone rfl).1⟩

end Timing
end Annealing
