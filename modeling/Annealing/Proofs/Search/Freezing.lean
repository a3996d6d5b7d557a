import Annealing.Search.Outcome
import Mathlib.Logic.Function.Iterate

/-!
# Searches that freeze

Where the number of levels is known, a search is a walk of that many levels.
It ends at a temperature that is not above the threshold, so it has an outcome
unless its walk breaks off; and a walk breaks off only at a state whose
feasibility has no answer.
-/
namespace Annealing

variable {σ ω : Type} {p : Problem σ} {s : Settings} {observe : ω → Event σ → ω}

namespace Walk

/-- The temperature after some levels does not depend on the walk. -/
theorem levels_temperature {n : Nat} {temperature : Float} {w : Walk σ} {seen : ω}
    {r : Float × Walk σ × ω} (h : levels p s observe n temperature w seen = .ok r) :
    r.1 = s.cool^[n] temperature := by
  induction n generalizing temperature w seen with
  | zero =>
    cases h
    rfl
  | succ n ih =>
    rw [levels] at h
    split at h
    · cases h
    · rw [Function.iterate_succ_apply]
      exact ih h

section
variable (answered : ∀ x, (p.feasible? x).isSome)
include answered

theorem propose_ok (temperature : Float) (w : Walk σ) : ∃ r, w.propose p temperature = .ok r := by
  unfold propose
  obtain ⟨feasible, hf⟩ := Option.isSome_iff_exists.mp (answered (p.neighbor w.current w.tape).1)
  cases feasible with
  | false =>
    simp only [hf]
    exact ⟨_, rfl⟩
  | true =>
    simp only [hf]
    split
    · exact ⟨_, rfl⟩
    · exact ⟨_, rfl⟩

theorem level_ok (temperature : Float) (n : Nat) (w : Walk σ) (seen : ω) :
    ∃ r, level p observe temperature n w seen = .ok r := by
  induction n generalizing w seen with
  | zero => exact ⟨_, rfl⟩
  | succ n ih =>
    obtain ⟨⟨w', moved⟩, hw⟩ := propose_ok answered temperature w
    rw [level, hw]
    cases moved with
    | false => exact ih w' seen
    | true => exact ih w' _

theorem levels_ok (n : Nat) (temperature : Float) (w : Walk σ) (seen : ω) :
    ∃ r, levels p s observe n temperature w seen = .ok r := by
  induction n generalizing temperature w seen with
  | zero => exact ⟨_, rfl⟩
  | succ n ih =>
    obtain ⟨⟨w', seen'⟩, hw⟩ := level_ok answered temperature s.proposals w seen
    rw [levels, hw]
    exact ih _ w' _

theorem start_ok (t : Tape) : ∃ w, start p t = .ok w := by
  obtain ⟨feasible, hf⟩ := Option.isSome_iff_exists.mp (answered (p.start t).1)
  simp only [start, hf]
  exact ⟨_, rfl⟩

end
end Walk

/-- The levels of a search are counted down to a temperature at which it is frozen. -/
theorem Settings.frozen_of_countLevels? {temperature : Float} {passed count : Nat}
    (h : s.countLevels? temperature passed = some count) :
    ¬ s.cool^[count - passed] temperature > s.threshold := by
  induction temperature, passed using countLevels?.induct s with
  | case1 temperature passed above falls ih =>
    rw [countLevels?, if_pos above, dif_pos falls] at h
    have le := le_of_countLevels? h
    rw [show count - passed = count - (passed + 1) + 1 by omega, Function.iterate_succ_apply]
    exact ih h
  | case2 temperature passed above stays =>
    rw [countLevels?, if_pos above, dif_neg stays] at h
    cases h
  | case3 temperature passed frozen =>
    rw [countLevels?, if_neg frozen, Option.some.injEq] at h
    rwa [h, Nat.sub_self]

/-- The count is the number of the first level at which the search is frozen. -/
theorem Settings.countLevels?_le {temperature : Float} {passed count : Nat}
    (h : s.countLevels? temperature passed = some count) {k : Nat}
    (hk : ¬ s.cool^[k] temperature > s.threshold) : count ≤ passed + k := by
  induction temperature, passed using countLevels?.induct s generalizing k with
  | case1 temperature passed above falls ih =>
    rw [countLevels?, if_pos above, dif_pos falls] at h
    cases k with
    | zero => exact absurd above hk
    | succ k =>
      have hle := ih h (by rwa [Function.iterate_succ_apply] at hk)
      omega
  | case2 temperature passed above stays =>
    rw [countLevels?, if_pos above, dif_neg stays] at h
    cases h
  | case3 temperature passed frozen =>
    rw [countLevels?, if_neg frozen, Option.some.injEq] at h
    omega

/-- The seed has no part in the schedule. -/
theorem Settings.levelCount?_withSeed (s : Settings) (seed? : Option UInt64) :
    { s with seed? }.levelCount? = s.levelCount? := by
  have hcount : ∀ temperature passed,
      { s with seed? }.countLevels? temperature passed = s.countLevels? temperature passed := by
    intro temperature passed
    induction temperature, passed using countLevels?.induct s with
    | case1 temperature passed above falls ih =>
      have falls' : { s with seed? }.Falls temperature := falls
      rw [countLevels?, countLevels?.eq_1 s, if_pos above, if_pos above, dif_pos falls,
        dif_pos falls']
      exact ih
    | case2 temperature passed above stays =>
      have stays' : ¬ { s with seed? }.Falls temperature := stays
      rw [countLevels?, countLevels?.eq_1 s, if_pos above, if_pos above, dif_neg stays,
        dif_neg stays']
    | case3 temperature passed frozen =>
      rw [countLevels?, countLevels?.eq_1 s, if_neg frozen, if_neg frozen]
  exact hcount s.initial 0

section
variable {t : Tape} {n : Nat} {w : Walk σ} {seen : ω} {r : Float × Walk σ × ω}

theorem Walk.descend_of_levels (patience : Nat) (count : s.levelCount? = some n)
    (walked : w.levels p s observe n s.initial seen = .ok r) :
    w.descend p s observe patience 0 s.initial seen = .ok (n, r) := by
  have hd := descend_eq_levels (p := p) observe patience w seen count
  rw [hd, Nat.sub_zero, walked]
  rfl

theorem observedSearch_eq_levels (valid : s.Valid) (count : s.levelCount? = some n)
    (start : Walk.start p t = .ok w) (walked : w.levels p s observe n s.initial seen = .ok r) :
    observedSearch p s observe seen t =
      (.ok (.ofWalk n r.1 r.2.1, r.2.2), r.2.1.tape) := by
  have hv : s.defect? = none := valid
  have hf := Settings.frozen_of_countLevels? count
  rw [Nat.sub_zero, ← Walk.levels_temperature walked] at hf
  simp only [observedSearch, hv, start, Walk.descend_of_levels _ count walked, if_neg hf]

theorem tracedSearch_eq_levels {r : Float × Walk σ × List (Event σ)} (valid : s.Valid)
    (count : s.levelCount? = some n) (start : Walk.start p t = .ok w)
    (walked : w.levels p s (fun seen event => event :: seen) n s.initial [] = .ok r) :
    tracedSearch p s t = (.ok (.ofWalk n r.1 r.2.1, r.2.2.reverse), r.2.1.tape) := by
  rw [tracedSearch, observedSearch_eq_levels valid count start walked]
  rfl

/-- A search with a known number of levels has an outcome if every state is feasible
or not. -/
theorem search_ok (valid : s.Valid) (count : s.levelCount? = some n)
    (answered : ∀ x, (p.feasible? x).isSome) : ∃ o, (search p s t).1 = .ok o := by
  obtain ⟨w, hw⟩ := Walk.start_ok answered t
  obtain ⟨r, hr⟩ : ∃ r, w.levels p s (fun seen _ => seen) n s.initial () = .ok r :=
    Walk.levels_ok answered n s.initial w ()
  refine ⟨.ofWalk n r.1 r.2.1, ?_⟩
  rw [search, observedSearch_eq_levels valid count hw hr]
  rfl

theorem tracedSearch_ok (valid : s.Valid) (count : s.levelCount? = some n)
    (answered : ∀ x, (p.feasible? x).isSome) :
    ∃ o events t', tracedSearch p s t = (.ok (o, events), t') := by
  obtain ⟨w, hw⟩ := Walk.start_ok answered t
  obtain ⟨r, hr⟩ : ∃ r, w.levels p s (fun seen event => event :: seen) n s.initial [] = .ok r :=
    Walk.levels_ok answered n s.initial w []
  exact ⟨_, _, _, tracedSearch_eq_levels valid count hw hr⟩

end
end Annealing
