import Annealing.Proofs.Decimal.Products
import Annealing.Proofs.Search.Freezing

/-!
# Cooling

The smallest temperature above the threshold loses least when it is cooled, so
it decides for all of them whether they fall. An infinite temperature loses
nothing. So whether valid settings freeze a search can be told from the initial
temperature and from one product. If they do not, the search stays above the
threshold for ever and comes to a standstill.
-/
namespace Annealing

open Magnitude Rounding

namespace Settings

variable {s : Settings}

/-- Every temperature above the threshold is followed by a smaller one, and some
temperature is not above the threshold. -/
structure Freezes (s : Settings) : Prop where
  falls : ∀ k, s.temperature k > s.threshold → s.temperature (k + 1) < s.temperature k
  frozen : ∃ k, ¬ s.temperature k > s.threshold

/-- The smallest number above the threshold. -/
def edge (s : Settings) : Float := .ofBits (s.threshold.toBits + 1)

/-- The smallest number with a full mantissa. -/
def smallestNormal : Float := .ofBits 0x10000000000000

theorem hasValue_smallestNormal : HasValue smallestNormal (2 ^ (-1022 : ℤ)) := by
  refine ⟨2 ^ 52, -1074, .of_toBits ⟨by norm_num, le_rfl, .inr rfl⟩ ?_ ?_, ?_⟩
  · decide
  · decide +kernel
  · rw [smallest_normal_eq, Nat.cast_pow, Nat.cast_ofNat]

/-- What settings without a defect say about values. -/
structure Exact (s : Settings) (threshold factor : ℚ) : Prop where
  threshold_value : HasValue s.threshold threshold
  factor_value : HasValue s.factor factor
  isFactor : IsFactor factor
  threshold_lt : s.threshold < s.initial
  initial_pos : 0.0 < s.initial

theorem Valid.exists_exact (h : s.Valid) : ∃ threshold factor, s.Exact threshold factor := by
  have hd : s.defect? = none := h
  simp only [defect?] at hd
  split_ifs at hd with hinitial hthreshold hbelow hfactor
  simp only [Bool.or_eq_true, decide_eq_true_eq, not_or, Bool.not_eq_true]
    at hinitial hthreshold hbelow hfactor
  have hzero : (0.0 : Float).isNaN = false := by decide +kernel
  have hone : (1.0 : Float).isNaN = false := by decide +kernel
  have hlt := Comparison.lt_of_not_le hinitial.1 hthreshold.1 hbelow
  obtain ⟨c, hc, -⟩ :=
    exists_hasValue_of_lt (Comparison.lt_of_not_le hthreshold.1 hzero hthreshold.2) hlt
  have hupper := Comparison.lt_of_not_le hone hfactor.1.1 hfactor.2
  obtain ⟨u, hu, hupos⟩ :=
    exists_hasValue_of_lt (Comparison.lt_of_not_le hfactor.1.1 hzero hfactor.1.2) hupper
  exact ⟨c, u, hc, hu, ⟨hupos, hu.le_of_lt_one hupper⟩, hlt,
    Comparison.lt_of_not_le hinitial.1 hzero hinitial.2⟩

section
variable {c u v n : ℚ} {x y : Float}

theorem Exact.cool (h : s.Exact c u) (hx : HasValue x v) :
    ∃ w, HasValue (s.cool x) w ∧ Nearest (v * u) w :=
  hx.mul h.factor_value h.isFactor.pos h.isFactor.lt_one.le

theorem Exact.exists_value_temperature (h : s.Exact c u) (hinitial : HasValue s.initial v)
    (k : ℕ) : ∃ w, HasValue (s.temperature k) w := by
  induction k with
  | zero => exact ⟨v, hinitial⟩
  | succ k ih =>
    obtain ⟨w, hw⟩ := ih
    obtain ⟨w', hw', -⟩ := h.cool hw
    exact ⟨w', hw'⟩

/-- If the edge falls, so does every number above the threshold. -/
theorem Exact.cool_lt (h : s.Exact c u) (hedge : s.cool s.edge < s.edge) (hx : HasValue x v)
    (hcv : c < v) : s.cool x < x := by
  obtain ⟨n, hn, hcn, hleast⟩ := h.threshold_value.next hx hcv
  obtain ⟨n', hn', hnearest'⟩ := h.cool hn
  obtain ⟨w, hw, hnearest⟩ := h.cool hx
  rw [hw.lt_iff hx]
  have hfall : n' < n := (hn'.lt_iff hn).mp hedge
  rcases (hleast x v hx hcv).eq_or_lt with rfl | hlt
  · cases hn.eq hx
    exact hw.unique hn' ▸ hfall
  · exact fall_of_lt h.isFactor hn hn' hnearest' hfall hx hlt hnearest

theorem Exact.cool_lt_of_normal (h : s.Exact c u) (hnormal : smallestNormal ≤ s.threshold)
    (hx : HasValue x v) (hcv : c < v) : s.cool x < x := by
  obtain ⟨w, hw, hnearest⟩ := h.cool hx
  have hle : ¬ c < 2 ^ (-1022 : ℤ) := by
    rw [← h.threshold_value.lt_iff hasValue_smallestNormal]
    exact Comparison.not_lt_of_le hnormal
  rw [hw.lt_iff hx]
  exact fall_of_normal h.isFactor hx ((not_lt.mp hle).trans_lt hcv) hnearest

/-- If the edge does not fall, no number above the threshold falls to it. -/
theorem Exact.lt_cool (h : s.Exact c u) (hedge : ¬ s.cool s.edge < s.edge) (hx : HasValue x v)
    (hcv : c < v) : s.threshold < s.cool x := by
  obtain ⟨n, hn, hcn, hleast⟩ := h.threshold_value.next hx hcv
  obtain ⟨n', hn', hnearest'⟩ := h.cool hn
  obtain ⟨w, hw, hnearest⟩ := h.cool hx
  rw [h.threshold_value.lt_iff hw]
  have hstay : n ≤ n' := not_lt.mp fun hlt => hedge ((hn'.lt_iff hn).mpr hlt)
  refine hcn.trans_le (hstay.trans ?_)
  rcases (hleast x v hx hcv).eq_or_lt with rfl | hlt
  · cases hn.eq hx
    exact (hw.unique hn').ge
  · exact hnearest'.mono hnearest (mul_lt_mul_of_pos_right hlt h.isFactor.pos)

theorem Exact.falls_iff (h : s.Exact c u) (hx : HasValue x v) : s.Falls x ↔ s.cool x < x := by
  obtain ⟨w, hw, -⟩ := h.cool hx
  rw [Falls, hw.toBits_lt_iff hx, hw.lt_iff hx]

theorem Exact.falls_or_stays (h : s.Exact c u) (hx : HasValue x v) :
    s.Falls x ∨ s.cool x = x := by
  obtain ⟨w, hw, hnearest⟩ := h.cool hx
  rw [Falls, hw.toBits_lt_iff hx]
  have hle : w ≤ v :=
    hnearest.le_of_le hx.mem_grid (mul_le_of_le_one_right hx.nonneg h.isFactor.lt_one.le)
  rcases hle.lt_or_eq with hlt | rfl
  · exact .inl hlt
  · exact .inr (hw.eq hx)

end

/-! ## The sequence of temperatures -/

theorem temperature_eq_iterate (k : ℕ) : s.temperature k = s.cool^[k] s.initial := by
  induction k with
  | zero => rfl
  | succ k ih => rw [Function.iterate_succ_apply', ← ih, temperature]

/-- Levels are counted as long as temperatures fall. -/
theorem exists_countLevels? {x : Float} (passed : ℕ)
    (hfalls : ∀ k, s.cool^[k] x > s.threshold → s.Falls (s.cool^[k] x)) :
    ∃ n, s.countLevels? x passed = some n := by
  induction x, passed using countLevels?.induct s with
  | case1 x passed above falls ih =>
    rw [countLevels?, if_pos above, dif_pos falls]
    exact ih fun k => by simpa only [Function.iterate_succ_apply] using hfalls (k + 1)
  | case2 x passed above stays => exact absurd (hfalls 0 above) stays
  | case3 x passed frozen =>
    rw [countLevels?, if_neg frozen]
    exact ⟨passed, rfl⟩

theorem exists_levelCount?
    (hfalls : ∀ k, s.threshold < s.temperature k → s.Falls (s.temperature k)) :
    ∃ n, s.levelCount? = some n := by
  refine exists_countLevels? 0 fun k above => ?_
  rw [← temperature_eq_iterate] at above ⊢
  exact hfalls k above

theorem frozen_of_levelCount? {n : ℕ} (h : s.levelCount? = some n) :
    ¬ s.threshold < s.temperature n := by
  have hfrozen := frozen_of_countLevels? h
  rwa [Nat.sub_zero, ← temperature_eq_iterate] at hfrozen

section
variable {c u v : ℚ}

theorem Exact.freezes (h : s.Exact c u) (hinitial : HasValue s.initial v)
    (hcool : ∀ x w, HasValue x w → c < w → s.cool x < x) :
    s.Freezes ∧ ∃ n, s.levelCount? = some n := by
  have hfalls : ∀ k, s.threshold < s.temperature k →
      s.temperature (k + 1) < s.temperature k := by
    intro k above
    obtain ⟨w, hw⟩ := h.exists_value_temperature hinitial k
    exact hcool _ w hw ((h.threshold_value.lt_iff hw).mp above)
  obtain ⟨n, hn⟩ : ∃ n, s.levelCount? = some n := by
    refine exists_levelCount? fun k above => ?_
    obtain ⟨w, hw⟩ := h.exists_value_temperature hinitial k
    exact (h.falls_iff hw).mpr (hfalls k above)
  exact ⟨⟨hfalls, n, frozen_of_levelCount? hn⟩, n, hn⟩

/-- The search stays above the threshold if the edge does not fall. -/
theorem Exact.lt_temperature (h : s.Exact c u) (hinitial : HasValue s.initial v)
    (hedge : ¬ s.cool s.edge < s.edge) (k : ℕ) : s.threshold < s.temperature k := by
  induction k with
  | zero => exact h.threshold_lt
  | succ k ih =>
    obtain ⟨w, hw⟩ := h.exists_value_temperature hinitial k
    exact h.lt_cool hedge hw ((h.threshold_value.lt_iff hw).mp ih)

theorem Exact.unbounded_temperature (h : s.Exact c u) (hinitial : Unbounded s.initial) (k : ℕ) :
    Unbounded (s.temperature k) := by
  induction k with
  | zero => exact hinitial
  | succ k ih => exact ih.mul h.factor_value h.isFactor.pos

/-- A search that stays above the threshold comes to a standstill. -/
theorem Exact.exists_standstill (h : s.Exact c u)
    (hinitial : Unbounded s.initial ∨ ∃ v, HasValue s.initial v)
    (above : ∀ k, s.threshold < s.temperature k) :
    ∃ k, s.temperature (k + 1) = s.temperature k := by
  rcases hinitial with hinitial | ⟨v, hinitial⟩
  · have hproduct : ∀ k, s.temperature (k + 1) = .ofModel (.pack (.infinity .positive)) :=
      fun k => (h.unbounded_temperature hinitial k).mul_eq h.factor_value h.isFactor.pos
    exact ⟨1, (hproduct 1).trans (hproduct 0).symm⟩
  · by_contra hmoves
    obtain ⟨n, hn⟩ : ∃ n, s.levelCount? = some n := by
      refine exists_levelCount? fun k _ => ?_
      obtain ⟨w, hw⟩ := h.exists_value_temperature hinitial k
      exact (h.falls_or_stays hw).resolve_right fun hstays => hmoves ⟨k, hstays⟩
    exact frozen_of_levelCount? hn (above n)

end
end Settings

/-! ## Searches -/

section
variable {σ ω : Type} {p : Problem σ} {s : Settings} {observe : ω → Event σ → ω}

theorem Walk.descend_ok (answered : ∀ x, (p.feasible? x).isSome) (patience passed : ℕ)
    (temperature : Float) (w : Walk σ) (seen : ω) :
    ∃ r, descend p s observe patience passed temperature w seen = .ok r := by
  fun_induction descend p s observe patience passed temperature w seen
  case case1 temperature w seen above tape broken =>
    obtain ⟨r, hr⟩ : ∃ r, level p observe temperature s.proposals w seen = .ok r :=
      Walk.level_ok answered _ _ _ _
    cases broken.symm.trans hr
  case case2 ih => exact ih
  case case3 => exact ⟨_, rfl⟩
  case case4 ih => exact ih
  case case5 => exact ⟨_, rfl⟩

theorem observedSearch_ends {n : ℕ} (valid : s.Valid) (count : s.levelCount? = some n)
    (seen : ω) (t : Tape) :
    (observedSearch p s observe seen t).1 = .error .outOfRange ∨
      ∃ r, (observedSearch p s observe seen t).1 = .ok r := by
  have hv : s.defect? = none := valid
  cases hstart : Walk.start p t with
  | error tape =>
    left
    simp only [observedSearch, hv, hstart]
  | ok w =>
    cases hwalk : w.levels p s observe n s.initial seen with
    | error tape =>
      left
      simp only [observedSearch, hv, hstart,
        Walk.descend_eq_levels observe Settings.patience w seen count, Nat.sub_zero, hwalk,
        Except.map]
    | ok r =>
      right
      rw [observedSearch_eq_levels valid count hstart hwalk]
      exact ⟨_, rfl⟩

theorem observedSearch_endless (valid : s.Valid) (above : ∀ k, s.threshold < s.temperature k)
    (answered : ∀ x, (p.feasible? x).isSome) (seen : ω) (t : Tape) :
    (observedSearch p s observe seen t).1 = .error .endless := by
  have hv : s.defect? = none := valid
  obtain ⟨w, hstart⟩ := Walk.start_ok answered t
  obtain ⟨r, hr⟩ : ∃ r, w.descend p s observe Settings.patience 0 s.initial seen = .ok r :=
    Walk.descend_ok answered _ _ _ _ _
  have hfinal := Walk.levels_temperature (Walk.levels_of_descend hr).2
  rw [← Settings.temperature_eq_iterate] at hfinal
  have hlt : r.2.1 > s.threshold := by
    rw [hfinal]
    exact above _
  simp only [observedSearch, hv, hstart, hr, if_pos hlt]

end

/-- Valid settings freeze a search if and only if they start at a finite temperature and
the smallest number above the threshold falls. Otherwise the search stays above the
threshold and comes to a standstill. -/
theorem Settings.freezes_iff_edge_falls (s : Settings) (valid : s.Valid) :
    (s.Freezes ↔ s.initial.isFinite = true ∧ s.cool s.edge < s.edge) ∧
    (s.initial.isFinite = true → smallestNormal ≤ s.threshold → s.Freezes) ∧
    (¬ s.Freezes → (∀ k, s.threshold < s.temperature k) ∧
      ∃ k, s.temperature (k + 1) = s.temperature k) ∧
    ∀ {σ ω : Type} (p : Problem σ) (observe : ω → Event σ → ω) (seen : ω) (t : Tape),
      (s.Freezes → (observedSearch p s observe seen t).1 = .error .outOfRange ∨
        ∃ r, (observedSearch p s observe seen t).1 = .ok r) ∧
      (¬ s.Freezes → (∀ x, (p.feasible? x).isSome) →
        (observedSearch p s observe seen t).1 = .error .endless) := by
  obtain ⟨c, u, h⟩ := valid.exists_exact
  have hinitial := positive_cases h.initial_pos
  have hfreezes : s.initial.isFinite = true → s.cool s.edge < s.edge →
      s.Freezes ∧ ∃ n, s.levelCount? = some n := by
    intro hfinite hedge
    obtain ⟨v, hv, -⟩ := (hinitial.resolve_right (by simp [hfinite])).2
    exact h.freezes hv fun x w => h.cool_lt hedge
  have habove : ¬ (s.initial.isFinite = true ∧ s.cool s.edge < s.edge) →
      ∀ k, s.threshold < s.temperature k := by
    intro hcondition k
    rcases hinitial with ⟨hfinite, v, hv, -⟩ | ⟨-, hunbounded⟩
    · exact h.lt_temperature hv (fun hedge => hcondition ⟨hfinite, hedge⟩) k
    · exact h.threshold_value.lt_of_unbounded (h.unbounded_temperature hunbounded k)
  have hiff : s.Freezes ↔ s.initial.isFinite = true ∧ s.cool s.edge < s.edge := by
    constructor
    · intro hf
      by_contra hcondition
      obtain ⟨k, hk⟩ := hf.frozen
      exact hk (habove hcondition k)
    · rintro ⟨hfinite, hedge⟩
      exact (hfreezes hfinite hedge).1
  refine ⟨hiff, ?_, ?_, ?_⟩
  · intro hfinite hnormal
    obtain ⟨v, hv, -⟩ := (hinitial.resolve_right (by simp [hfinite])).2
    refine (h.freezes hv fun x w hx hw => ?_).1
    exact h.cool_lt_of_normal hnormal hx hw
  · intro hnever
    have hall := habove (hiff.not.mp hnever)
    refine ⟨hall, h.exists_standstill ?_ hall⟩
    rcases hinitial with ⟨-, v, hv, -⟩ | ⟨-, hunbounded⟩
    · exact .inr ⟨v, hv⟩
    · exact .inl hunbounded
  · intro σ ω p observe seen t
    constructor
    · intro hf
      obtain ⟨hfinite, hedge⟩ := hiff.mp hf
      obtain ⟨-, n, hn⟩ := hfreezes hfinite hedge
      exact observedSearch_ends valid hn seen t
    · intro hnever answered
      exact observedSearch_endless valid (habove (hiff.not.mp hnever)) answered seen t

/-- The two smallest positive numbers, and a factor that takes neither to zero. -/
def bottom : Settings where
  initial := .ofBits 2
  threshold := .ofBits 1
  factor := 0.99
  proposals := 1

theorem Settings.freezes_iff_edge_falls_bottom :
    ({} : Settings).Freezes ∧ bottom.Valid ∧ ¬ bottom.Freezes ∧
      ∀ k, bottom.threshold < bottom.temperature k := by
  have hvalid : bottom.Valid := by decide +kernel
  have hstays : ¬ bottom.cool bottom.edge < bottom.edge := by decide +kernel
  have hfalls : ({} : Settings).cool ({} : Settings).edge < ({} : Settings).edge := by
    decide +kernel
  have hbottom := freezes_iff_edge_falls bottom hvalid
  have hnever : ¬ bottom.Freezes := fun hf => hstays (hbottom.1.mp hf).2
  refine ⟨?_, hvalid, hnever, (hbottom.2.2.1 hnever).1⟩
  exact (freezes_iff_edge_falls {} (by decide +kernel)).1.mpr ⟨by decide +kernel, hfalls⟩

end Annealing
