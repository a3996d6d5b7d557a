import Annealing.Search.Walk

/-!
# Descents

A descent visits the levels of a search one by one until it is frozen, and
learns their number only as it goes. So a walk breaks off where it has to,
however many levels would follow, and even if they have no end. A temperature
that stays above the threshold and does not fall is borne with a limited
patience, and a descent without any left gives up.

A descent that comes to its end is a walk of as many levels as it has counted
(`levels_of_descend`), and patience makes no difference to a search that is
ever frozen (`descend_eq_levels`).
-/
namespace Annealing
namespace Walk

variable {σ ω : Type}

/-- Visits the levels from a temperature downwards until the search is frozen, and
cools after each. A level whose temperature does not fall costs patience; without
any left the descent ends above the threshold. The answer has the number of levels,
with those already passed, and the temperature after the last one. -/
def descend (p : Problem σ) (s : Settings) (observe : ω → Event σ → ω)
    (patience passed : Nat) (temperature : Float) (w : Walk σ) (seen : ω) :
    Except Tape (Nat × Float × Walk σ × ω) :=
  if temperature > s.threshold then
    match level p observe temperature s.proposals w seen with
    | .error tape => .error tape
    | .ok (w, seen) =>
      let next := s.cool temperature
      let seen := observe seen (.cooled temperature next)
      if falls : s.Falls temperature then
        descend p s observe patience (passed + 1) next w seen
      else
        match patience with
        | 0 => .ok (passed + 1, next, w, seen)
        | patience + 1 => descend p s observe patience (passed + 1) next w seen
  else .ok (passed, temperature, w, seen)
termination_by (patience, temperature.toBits.toNat)
decreasing_by
  · exact Prod.Lex.right _ falls.toNat_lt
  · exact Prod.Lex.left _ _ (Nat.lt_succ_self _)

/-- A descent that does not break off has visited the levels it has counted. -/
theorem levels_of_descend {p : Problem σ} {s : Settings} {observe : ω → Event σ → ω}
    {patience passed : Nat} {temperature : Float} {w : Walk σ} {seen : ω}
    {r : Nat × Float × Walk σ × ω}
    (h : descend p s observe patience passed temperature w seen = .ok r) :
    passed ≤ r.1 ∧ levels p s observe (r.1 - passed) temperature w seen = .ok r.2 := by
  induction patience, passed, temperature, w, seen using descend.induct p s observe with
  | case1 patience passed temperature w seen above tape broken =>
    rw [descend, if_pos above, broken] at h
    cases h
  | case2 patience passed temperature w seen above w' seen' visited next cooled falls ih =>
    rw [descend, if_pos above, visited] at h
    simp only [dif_pos falls] at h
    obtain ⟨le, eq⟩ := ih h
    refine ⟨by omega, ?_⟩
    rw [show r.1 - passed = r.1 - (passed + 1) + 1 by omega, levels, visited]
    exact eq
  | case3 passed temperature w seen above w' seen' visited falls =>
    rw [descend, if_pos above, visited] at h
    simp only [dif_neg falls, Except.ok.injEq] at h
    subst h
    refine ⟨Nat.le_succ _, ?_⟩
    rw [show passed + 1 - passed = 0 + 1 by omega, levels, visited]
    rfl
  | case4 passed temperature w seen above w' seen' visited next cooled falls patience ih =>
    rw [descend, if_pos above, visited] at h
    simp only [dif_neg falls] at h
    obtain ⟨le, eq⟩ := ih h
    refine ⟨by omega, ?_⟩
    rw [show r.1 - passed = r.1 - (passed + 1) + 1 by omega, levels, visited]
    exact eq
  | case5 patience passed temperature w seen frozen =>
    rw [descend, if_neg frozen, Except.ok.injEq] at h
    subst h
    refine ⟨Nat.le_refl _, ?_⟩
    rw [Nat.sub_self, levels]

/-- Where the number of levels is known, a descent visits them all and has no use
for patience. -/
theorem descend_eq_levels {p : Problem σ} {s : Settings} (observe : ω → Event σ → ω)
    (patience : Nat) {passed count : Nat} {temperature : Float} (w : Walk σ) (seen : ω)
    (h : s.countLevels? temperature passed = some count) :
    descend p s observe patience passed temperature w seen =
      (levels p s observe (count - passed) temperature w seen).map (count, ·) := by
  induction temperature, passed using Settings.countLevels?.induct s generalizing w seen with
  | case1 temperature passed above falls ih =>
    rw [Settings.countLevels?, if_pos above, dif_pos falls] at h
    have le := Settings.le_of_countLevels? h
    rw [descend, if_pos above, show count - passed = count - (passed + 1) + 1 by omega, levels]
    cases level p observe temperature s.proposals w seen with
    | error tape => rfl
    | ok visited => simp only [dif_pos falls]; exact ih _ _ h
  | case2 temperature passed above stays =>
    rw [Settings.countLevels?, if_pos above, dif_neg stays] at h
    cases h
  | case3 temperature passed frozen =>
    rw [Settings.countLevels?, if_neg frozen, Option.some.injEq] at h
    subst h
    rw [descend, if_neg frozen, Nat.sub_self, levels]
    rfl

end Walk
end Annealing
