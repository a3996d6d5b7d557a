import Annealing.Proofs.Attempts
import Annealing.Proofs.Decimal.Naturals
import Annealing.Proofs.Search.Cooling
import Annealing.Proofs.Search.Run

/-!
# Settings for a size

The settings for a number of elements start at a finite temperature of at least
twice the threshold, whatever the number. So they have no defect and freeze a
search, and a search whose states are all feasible or not has an outcome.

A level takes a hundredth off the temperature, but for rounding. If the
temperature is below a multiple of a small enough unit, so is the next one, and
seventy levels halve such a bound. So the number of levels is at most seventy
times the number of halvings from the initial temperature to the threshold.
-/
namespace Annealing.Settings

open Magnitude Rounding

variable {n : ℕ}

theorem exists_hasValue_initial_forSize (hn : n < 2 ^ 64) :
    ∃ v, HasValue (forSize n).initial v ∧ 8 ≤ v := by
  obtain ⟨v, hv⟩ := exists_hasValue_five_mul (n := max n 1) (by omega) (by omega)
  by_cases hsmall : 5.0 * Float.ofNat (max n 1) < 8.0
  · refine ⟨8, ?_, le_rfl⟩
    simp only [forSize, if_pos hsmall]
    exact hasValue_eight
  · refine ⟨v, ?_, ?_⟩
    · simp only [forSize, if_neg hsmall]
      exact hv
    · rwa [hv.lt_iff hasValue_eight, not_lt] at hsmall

theorem valid_forSize (hn : n < 2 ^ 64) : (forSize n).Valid := by
  obtain ⟨v, hv, hle⟩ := exists_hasValue_initial_forSize hn
  have hpos : 0.0 < (forSize n).initial := (HasValue.zero.lt_iff hv).mpr (by linarith)
  have habove : (forSize n).threshold < (forSize n).initial :=
    (hasValue_four.lt_iff hv).mpr (by linarith)
  have hproposals : ¬ (forSize n).proposals = 0 := by
    change ¬ max n 1 = 0
    omega
  have hinitial : ¬ ((forSize n).initial.isNaN || decide ((forSize n).initial ≤ 0.0)) = true := by
    rw [hv.isNaN_eq_false, Bool.false_or, decide_eq_true_eq]
    exact fun hle => Comparison.not_lt_of_le hle hpos
  have hbelow : ¬ (forSize n).threshold ≥ (forSize n).initial := fun hge =>
    Comparison.not_lt_of_le hge habove
  -- The threshold and the factor are the same for every size.
  have hthreshold : ¬ ((forSize n).threshold.isNaN ||
      decide ((forSize n).threshold ≤ 0.0)) = true := by
    change ¬ ((4.0 : Float).isNaN || decide ((4.0 : Float) ≤ 0.0)) = true
    decide +kernel
  have hfactor : ¬ ((forSize n).factor.isNaN || decide ((forSize n).factor ≤ 0.0) ||
      decide ((forSize n).factor ≥ 1.0)) = true := by
    change ¬ ((0.99 : Float).isNaN || decide ((0.99 : Float) ≤ 0.0) ||
      decide ((0.99 : Float) ≥ 1.0)) = true
    decide +kernel
  unfold Valid defect?
  rw [if_neg hinitial, if_neg hthreshold, if_neg hbelow, if_neg hfactor, if_neg hproposals]

theorem freezes_forSize (hn : n < 2 ^ 64) :
    (forSize n).Freezes ∧ ∃ count, (forSize n).levelCount? = some count := by
  obtain ⟨v, hv, -⟩ := exists_hasValue_initial_forSize hn
  obtain ⟨c, u, h⟩ := (valid_forSize hn).exists_exact
  have hnormal : smallestNormal ≤ (forSize n).threshold := by
    change smallestNormal ≤ 4.0
    decide +kernel
  exact h.freezes hv fun _ _ hx hlt => h.cool_lt_of_normal hnormal hx hlt

theorem exists_levelCount?_forSize (hn : n < 2 ^ 64) :
    ∃ count, (forSize n).levelCount? = some count :=
  (freezes_forSize hn).2

/-! ## The number of levels -/

/-- A bound on the temperature after a level, from one before it, both in units of a power
of two. -/
def shrink (m : ℕ) : ℕ := m * 99 / 100 + 1

theorem shrink_le {m : ℕ} (hm : m ≤ 2 ^ 53) : shrink m ≤ 2 ^ 53 := by
  unfold shrink
  omega

theorem shrink_seventy : shrink^[70] (2 ^ 30) ≤ 2 ^ 29 := by decide +kernel

theorem hasValue_factor_forSize (n : ℕ) :
    HasValue (forSize n).factor (8917127262193582 * 2 ^ (-53 : ℤ)) :=
  hasValue_of_toBits (m := 8917127262193582) (e := -53) (by norm_num) (by norm_num) (by norm_num)
    (by decide) (by change (0.99 : Float).toBits.toNat = _; decide +kernel) (by norm_num)

section
variable {s : Settings} {x : Float} {c u v : ℚ} {m : ℕ} {e : ℤ}

/-- A bound in the grid shrinks however the product is rounded. -/
theorem Exact.cool_le (h : s.Exact c u) (hu : u ≤ 99 / 100) (hx : HasValue x v)
    (hv : v ≤ m * 2 ^ e) (hm : m ≤ 2 ^ 53) (he : -1074 ≤ e) :
    ∃ w, HasValue (s.cool x) w ∧ w ≤ shrink m * 2 ^ e := by
  obtain ⟨w, hw, hnearest⟩ := h.cool hx
  refine ⟨w, hw, hnearest.le_of_le ⟨shrink m, e, shrink_le hm, he, rfl⟩ ?_⟩
  have hshrink : (m : ℚ) * (99 / 100) ≤ shrink m := by
    have hnat : m * 99 ≤ shrink m * 100 := by
      unfold shrink
      omega
    have hcast : (m : ℚ) * 99 ≤ shrink m * 100 := by exact_mod_cast hnat
    linarith
  have hpos := two_zpow_pos e
  calc v * u ≤ v * (99 / 100) := mul_le_mul_of_nonneg_left hu hx.nonneg
    _ ≤ m * 2 ^ e * (99 / 100) := mul_le_mul_of_nonneg_right hv (by norm_num)
    _ = m * (99 / 100) * 2 ^ e := by ring
    _ ≤ shrink m * 2 ^ e := mul_le_mul_of_nonneg_right hshrink hpos.le

theorem Exact.iterate_cool_le (h : s.Exact c u) (hu : u ≤ 99 / 100) (hx : HasValue x v)
    (hv : v ≤ m * 2 ^ e) (hm : m ≤ 2 ^ 53) (he : -1074 ≤ e) (k : ℕ) :
    ∃ w, HasValue (s.cool^[k] x) w ∧ w ≤ (shrink^[k] m : ℕ) * 2 ^ e := by
  induction k generalizing x v m with
  | zero => exact ⟨v, hx, hv⟩
  | succ k ih =>
    obtain ⟨w, hw, hle⟩ := h.cool_le hu hx hv hm he
    rw [Function.iterate_succ_apply, Function.iterate_succ_apply]
    exact ih hw hle (shrink_le hm)

/-- Seventy levels halve a bound on the temperature. -/
theorem Exact.seventy_le (h : s.Exact c u) (hu : u ≤ 99 / 100) (hx : HasValue x v) {b : ℕ}
    (hv : v ≤ 4 * 2 ^ (b + 1)) : ∃ w, HasValue (s.cool^[70] x) w ∧ w ≤ 4 * 2 ^ b := by
  have hunit : ((2 ^ 30 : ℕ) : ℚ) * 2 ^ ((b : ℤ) - 27) = 4 * 2 ^ (b + 1) := by
    rw [sub_eq_add_neg, two_zpow_add, zpow_natCast]
    push_cast
    norm_num
    ring
  obtain ⟨w, hw, hle⟩ := h.iterate_cool_le hu hx (hv.trans_eq hunit.symm) (by norm_num)
    (by omega) 70
  refine ⟨w, hw, hle.trans ?_⟩
  have hhalf : ((shrink^[70] (2 ^ 30) : ℕ) : ℚ) ≤ 2 ^ 29 := by exact_mod_cast shrink_seventy
  have hpos := two_zpow_pos ((b : ℤ) - 27)
  calc ((shrink^[70] (2 ^ 30) : ℕ) : ℚ) * 2 ^ ((b : ℤ) - 27)
      ≤ 2 ^ 29 * 2 ^ ((b : ℤ) - 27) := mul_le_mul_of_nonneg_right hhalf hpos.le
    _ = ((2 ^ 30 : ℕ) : ℚ) * 2 ^ ((b : ℤ) - 27) / 2 := by push_cast; ring
    _ = 4 * 2 ^ b := by rw [hunit, pow_succ]; ring

theorem Exact.iterate_seventy_le (h : s.Exact c u) (hu : u ≤ 99 / 100) {b : ℕ}
    (hx : HasValue x v) (hv : v ≤ 4 * 2 ^ b) :
    ∃ w, HasValue (s.cool^[70 * b] x) w ∧ w ≤ 4 := by
  induction b generalizing x v with
  | zero => exact ⟨v, hx, by simpa using hv⟩
  | succ b ih =>
    obtain ⟨w, hw, hle⟩ := h.seventy_le hu hx hv
    rw [Nat.mul_succ, Function.iterate_add_apply]
    exact ih hw hle

end

/-- A temperature of at most four times a power of two is frozen after seventy levels for
each doubling. -/
theorem levelCount?_forSize_le {n b : ℕ} {v : ℚ} (hn : n < 2 ^ 64)
    (hv : HasValue (forSize n).initial v) (hb : v ≤ 4 * 2 ^ b) {count : ℕ}
    (hcount : (forSize n).levelCount? = some count) : count ≤ 70 * b := by
  obtain ⟨c, u, h⟩ := (valid_forSize hn).exists_exact
  have hu : u ≤ 99 / 100 := by
    rw [h.factor_value.unique (hasValue_factor_forSize n)]
    norm_num
  obtain ⟨w, hw, hle⟩ := h.iterate_seventy_le hu hv hb
  have hfrozen : ¬ (forSize n).cool^[70 * b] (forSize n).initial > (forSize n).threshold := by
    intro habove
    exact absurd ((hasValue_four.lt_iff hw).mp habove) (not_lt.mpr hle)
  have hbound := countLevels?_le hcount hfrozen
  omega

end Annealing.Settings

namespace Annealing

open Magnitude

variable {σ ω : Type} {p : Problem σ} {s : Settings} {observe : ω → Event σ → ω} {seen : ω}
  {t : Tape}

/-- The levels of an outcome are those of the schedule. -/
theorem levels_of_observedSearch {count : ℕ} {r : Outcome σ × ω}
    (hcount : s.levelCount? = some count) (h : (observedSearch p s observe seen t).1 = .ok r) :
    r.1.levels = count := by
  have hsearch : observedSearch p s observe seen t =
      (.ok (r.1, r.2), (observedSearch p s observe seen t).2) := Prod.ext h rfl
  obtain ⟨-, w, levels, final, w', -, hdescend, -, houtcome⟩ := descend_of_observedSearch hsearch
  rw [Walk.descend_eq_levels observe _ w seen hcount] at hdescend
  obtain ⟨visited, -, heq⟩ := map_eq_ok_iff.mp hdescend
  rw [houtcome]
  exact (congrArg Prod.fst heq).symm

/-- The settings for a number of elements have no defect, cool at every level and freeze a
search after at most seventy levels for each doubling from the threshold up to the initial
temperature. -/
theorem Settings.forSize_short (n : UInt64) :
    (forSize n.toNat).Valid ∧ (forSize n.toNat).Freezes ∧
    ∃ (initial : ℚ) (b : ℕ), HasValue (forSize n.toNat).initial initial ∧
      IsLeast {b : ℕ | initial ≤ 4 * 2 ^ b} b ∧
      ∃ count ≤ 70 * b, (forSize n.toNat).levelCount? = some count ∧
        ∀ {σ ω : Type} (p : Problem σ) (observe : ω → Event σ → ω) (seen : ω) (t : Tape)
          (seed? : Option UInt64),
          (observedSearch p { forSize n.toNat with seed? } observe seen t).1 =
              .error .outOfRange ∨
            ∃ r, (observedSearch p { forSize n.toNat with seed? } observe seen t).1 = .ok r ∧
              r.1.levels = count := by
  have hn : n.toNat < 2 ^ 64 := n.toNat_lt
  have hvalid := valid_forSize hn
  obtain ⟨hfreezes, count, hcount⟩ := freezes_forSize hn
  obtain ⟨initial, hinitial, -⟩ := exists_hasValue_initial_forSize hn
  have hexists : ∃ b : ℕ, initial ≤ 4 * 2 ^ b := by
    obtain ⟨b, hb⟩ := pow_unbounded_of_one_lt initial (one_lt_two (α := ℚ))
    exact ⟨b, by linarith [hinitial.nonneg]⟩
  refine ⟨hvalid, hfreezes, initial, Nat.find hexists, hinitial,
    ⟨Nat.find_spec hexists, fun b hb => Nat.find_min' hexists hb⟩, count,
    levelCount?_forSize_le hn hinitial (Nat.find_spec hexists) hcount, hcount, ?_⟩
  intro σ ω p observe seen t seed?
  have hcount' : { forSize n.toNat with seed? }.levelCount? = some count :=
    (levelCount?_withSeed _ seed?).trans hcount
  have hvalid' : { forSize n.toNat with seed? }.Valid := hvalid
  rcases observedSearch_ends hvalid' hcount' seen t with hbroken | ⟨r, hr⟩
  · exact .inl hbroken
  · exact .inr ⟨r, hr, levels_of_observedSearch hcount' hr⟩

end Annealing
