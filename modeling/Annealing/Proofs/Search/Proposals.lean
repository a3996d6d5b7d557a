import Annealing.Proofs.Attempts
import Annealing.Proofs.Search.Run

/-!
# The proposals of a search

Levels divide the proposals of a search by their temperatures. Leaving out the
ends of the levels, a search is one row of proposals, and its outcome is that
of the walk after the last one.

Where an infeasible start is no better than its neighbours, the row tells when
it is left. Until then the walk has the start for its current state, so that
every proposal is a neighbour of the start; the first feasible one of them is
accepted at any temperature and whatever the tape says.
-/
namespace Annealing

variable {σ ω : Type} {p : Problem σ} {s : Settings} {t t' : Tape}

/-- The walk of a search after a number of proposals, each made at the temperature of its
level. -/
def Problem.walk (p : Problem σ) (s : Settings) (t : Tape) : Nat → Except Tape (Walk σ)
  | 0 => Walk.start p t
  | k + 1 =>
    match p.walk s t k with
    | .error tape => .error tape
    | .ok w => (w.propose p (s.temperature (k / s.proposals))).map Prod.fst

namespace Walk

variable {observe : ω → Event σ → ω} {w w' : Walk σ} {seen : ω} {k n : Nat}

theorem walk_succ_eq_ok_iff : p.walk s t (k + 1) = .ok w' ↔
    ∃ w moved, p.walk s t k = .ok w ∧
      w.propose p (s.temperature (k / s.proposals)) = .ok (w', moved) := by
  rw [Problem.walk]
  cases p.walk s t k with
  | error tape => simp
  | ok w => simp [map_eq_ok_iff, Prod.exists]

theorem proposals_of_walk (h : p.walk s t k = .ok w) : w.proposals = k := by
  induction k generalizing w with
  | zero => rw [(start_eq_ok h).2]
  | succ k ih =>
    obtain ⟨w₁, moved, hw₁, hw⟩ := walk_succ_eq_ok_iff.mp h
    rw [proposals_of_propose hw, ih hw₁]

/-- A level goes on with the row where `m` of its proposals have been made. -/
theorem walk_of_level {m : Nat} {seen' : ω} (hw : p.walk s t (k * s.proposals + m) = .ok w)
    (hn : m + n ≤ s.proposals)
    (h : w.level p observe (s.temperature k) n seen = .ok (w', seen')) :
    p.walk s t (k * s.proposals + (m + n)) = .ok w' := by
  induction n generalizing m w seen with
  | zero =>
    cases h
    exact hw
  | succ n ih =>
    have hlevel : (k * s.proposals + m) / s.proposals = k := by
      rw [Nat.mul_comm, Nat.mul_add_div (by omega), Nat.div_eq_of_lt (by omega), Nat.add_zero]
    have hnext : ∀ {w₁ moved}, w.propose p (s.temperature k) = .ok (w₁, moved) →
        p.walk s t (k * s.proposals + (m + 1)) = .ok w₁ := fun hw₁ =>
      walk_succ_eq_ok_iff.mpr ⟨w, _, hw, hlevel.symm ▸ hw₁⟩
    rw [show m + (n + 1) = m + 1 + n by omega]
    rw [Walk.level] at h
    split at h
    case h_1 => cases h
    case h_2 w₁ hw₁ => exact ih (hnext hw₁) (by omega) h
    case h_3 w₁ hw₁ => exact ih (hnext hw₁) (by omega) h

theorem walk_of_levels {count : Nat} {r : Float × Walk σ × ω}
    (hw : p.walk s t (k * s.proposals) = .ok w)
    (h : w.levels p s observe count (s.temperature k) seen = .ok r) :
    p.walk s t ((k + count) * s.proposals) = .ok r.2.1 := by
  induction count generalizing k w seen with
  | zero =>
    cases h
    exact hw
  | succ count ih =>
    rw [Walk.levels] at h
    split at h
    case h_1 => cases h
    case h_2 w₁ seen₁ hw₁ =>
      have hlevel := walk_of_level (m := 0) hw (by omega) hw₁
      rw [Nat.zero_add, ← Nat.succ_mul] at hlevel
      rw [show k + (count + 1) = k + 1 + count by omega]
      exact ih hlevel h

end Walk

/-- The outcome of a search is that of its row of proposals. -/
theorem walk_of_tracedSearch {o : Outcome σ} {events : List (Event σ)}
    (h : tracedSearch p s t = (.ok (o, events), t')) :
    ∃ w, p.walk s t o.proposals = .ok w ∧ o = .ofWalk o.levels o.finalTemperature w ∧
      t' = w.tape := by
  obtain ⟨-, start, count, final, w, hstart, hw, -, rfl, rfl⟩ :=
    observedSearch_eq_ok_iff.mp (observed_of_tracedSearch h)
  have hlevels := (Walk.levels_of_descend hw).2
  have hwalk : p.walk s t ((0 + count) * s.proposals) = .ok w :=
    Walk.walk_of_levels (k := 0) (by rwa [Nat.zero_mul]) hlevels
  refine ⟨w, ?_, rfl, rfl⟩
  change p.walk s t w.proposals = _
  rwa [Walk.proposals_of_walk hwalk]

namespace Walk

/-! ## Leaving an infeasible start -/

/-- A walk that has not held a feasible state is still where it started. -/
def Waits (p : Problem σ) (start : σ) (w : Walk σ) : Prop :=
  w.feasible = false → w.current = start ∧ w.objective = p.objective start

variable {start : σ} {w w' : Walk σ}

/-- A waiting walk waits on until a feasible neighbour of the start is proposed. -/
theorem Waits.propose {temperature : Float} {moved : Bool} (hw : w.Waits p start)
    (hcost : ∀ t, p.objective start - p.objective (p.neighbor start t).1 ≤ 0.0)
    (h : w.propose p temperature = .ok (w', moved)) :
    w'.Waits p start ∧ (w'.feasible = true ↔
      w.feasible = true ∨ p.feasible? (p.neighbor start w.tape).1 = some true) := by
  have hpropose := propose_cases h
  cases hf : w.feasible with
  | true =>
    have hf' : w'.feasible = true := by
      obtain ⟨-, heq⟩ | ⟨-, -, heq⟩ | ⟨-, -, heq⟩ := hpropose
      all_goals cases heq
      · exact hf
      · exact hf
      · rfl
    refine ⟨?_, by simp [hf']⟩
    intro hnot
    rw [hf'] at hnot
    cases hnot
  | false =>
    obtain ⟨hcurrent, hobjective⟩ := hw hf
    simp only [hcurrent, hobjective, acceptMove, if_pos (hcost w.tape)] at hpropose
    obtain ⟨hnext, heq⟩ | ⟨-, hrefused, -⟩ | ⟨hnext, -, heq⟩ := hpropose
    · cases heq
      exact ⟨hw, by simp [hnext, stay, hf]⟩
    · cases hrefused
    · cases heq
      refine ⟨?_, by simp [hnext, Walk.move]⟩
      intro hnot
      cases hnot

/-- A row of proposals has been feasible if the start is, or one of its proposals was a feasible
neighbour of the start. -/
theorem feasible_iff_of_walk {k : Nat}
    (hcost : ∀ t, p.objective (p.start t').1 - p.objective (p.neighbor (p.start t').1 t).1 ≤ 0.0)
    (h : p.walk s t' k = .ok w) :
    w.Waits p (p.start t').1 ∧ (w.feasible = true ↔ p.feasible? (p.start t').1 = some true ∨
      ∃ j < k, ∃ v, p.walk s t' j = .ok v ∧
        p.feasible? (p.neighbor (p.start t').1 v.tape).1 = some true) := by
  induction k generalizing w with
  | zero =>
    obtain ⟨hf, hw⟩ := start_eq_ok h
    refine ⟨?_, by simp [hf]⟩
    rw [hw]
    exact fun _ => ⟨rfl, rfl⟩
  | succ k ih =>
    obtain ⟨v, moved, hv, hw⟩ := walk_succ_eq_ok_iff.mp h
    obtain ⟨hwaits, hiff⟩ := ih hv
    obtain ⟨hwaits', hiff'⟩ := hwaits.propose hcost hw
    refine ⟨hwaits', hiff'.trans ?_⟩
    rw [hiff, or_assoc]
    refine or_congr_right ?_
    constructor
    · rintro (⟨j, hj, u, hu⟩ | hnext)
      · exact ⟨j, Nat.lt_succ_of_lt hj, u, hu⟩
      · exact ⟨k, Nat.lt_succ_self k, v, hv, hnext⟩
    · rintro ⟨j, hj, u, hu, hnext⟩
      rcases Nat.lt_succ_iff_lt_or_eq.mp hj with hj | rfl
      · exact .inl ⟨j, hj, u, hu, hnext⟩
      · obtain rfl : v = u := by simpa [hv] using hu
        exact .inr hnext

end Walk
end Annealing
