import Annealing.Proofs.Knapsack.Selection
import Annealing.Proofs.Random.Reading
import Annealing.Proofs.Satisfiability.Assignment
import Annealing.Proofs.Search.Freezing
import Annealing.Proofs.Search.Run

/-!
# Replaying a search

A search reads its tape word by word and never looks ahead. So it can be made
again, event by event, on every tape that begins with the words it has read,
whatever follows them, and leaves this tape equally far on.

Two walks that differ in their tapes alone stay so as long as these agree: one
proposal of the first is one of the second, then a level, then all levels. How
many levels there are is a matter of the settings. How many words are read is
counted over the walks that one search reaches.
-/
namespace Annealing

variable {σ ω : Type} {p : Problem σ} {s : Settings} {observe : ω → Event σ → ω}
  {least most : Nat}

/-- A problem starts without reading, and reads no fewer than `least` and no more than `most`
words for a neighbour. -/
structure Problem.Draws (p : Problem σ) (least most : Nat) : Prop where
  start : ∀ t, Tape.Reads p.start 0 t
  neighbor : ∀ x t, ∃ n, least ≤ n ∧ n ≤ most ∧ Tape.Reads (p.neighbor x) n t

namespace Walk

/-! ## The same walk on another tape -/

/-- A walk with another tape. -/
def withTape (w : Walk σ) (tape : Tape) : Walk σ := { w with tape }

variable {temperature : Float} {w w' : Walk σ} {seen seen' : ω}

theorem start_withTape (hp : p.Draws least most) {t : Tape} (h : start p t = .ok w) (u : Tape) :
    w.tape = t ∧ start p u = .ok (w.withTape u) := by
  have hstart : ∀ u, p.start u = ((p.start t).1, u) := fun u =>
    hp.start t u fun _ hj => absurd hj (Nat.not_lt_zero _)
  obtain ⟨hf, hw⟩ := start_eq_ok h
  constructor
  · rw [hw]
    exact congrArg Prod.snd (hstart t)
  · rw [start, hstart u]
    simp only [hf]
    rw [hw]
    rfl

/-- A way from a walk to another one that has read `n` words more. It leads there on every tape
that has these words next. -/
structure Repeats (way : Walk σ → Walk σ → Prop) (n : Nat) (w w' : Walk σ) : Prop where
  tape_eq : w'.tape = w.tape.skip n
  again : ∀ u, w.tape.Agrees n u → way (w.withTape u) (w'.withTape (u.skip n))

/-- One way after another reads the words of both. -/
theorem Repeats.trans {first rest way : Walk σ → Walk σ → Prop} {m n : Nat} {w₁ : Walk σ}
    (hfirst : Repeats first m w w₁) (hrest : Repeats rest n w₁ w')
    (hway : ∀ u u₁ u', first (w.withTape u) (w₁.withTape u₁) →
      rest (w₁.withTape u₁) (w'.withTape u') → way (w.withTape u) (w'.withTape u')) :
    Repeats way (m + n) w w' where
  tape_eq := by rw [hrest.tape_eq, hfirst.tape_eq, Tape.skip_add]
  again u hu := by
    obtain ⟨hum, hun⟩ := Tape.agrees_add.mp hu
    rw [← hfirst.tape_eq] at hun
    rw [Tape.skip_add]
    exact hway _ _ _ (hfirst.again u hum) (hrest.again _ hun)

/-- A proposal reads the words for a neighbour, and at most two more to decide on the move. -/
theorem propose_withTape (hp : p.Draws least most) {moved : Bool}
    (h : w.propose p temperature = .ok (w', moved)) :
    ∃ n, least ≤ n ∧ n ≤ most + 2 ∧
      Repeats (fun v v' => v.propose p temperature = .ok (v', moved)) n w w' := by
  obtain ⟨m, hleast, hmost, hneighbor⟩ := hp.neighbor w.current w.tape
  have hpropose := propose_cases h
  have hnext := hneighbor.snd_eq
  rcases hx : p.neighbor w.current w.tape with ⟨x, tape₁⟩
  rw [hx] at hnext
  change tape₁ = _ at hnext
  subst hnext
  obtain ⟨k, hk, hdecide⟩ := reads_acceptMove (w.objective - p.objective x) temperature
    (w.tape.skip m)
  have htrial := hdecide.snd_eq
  rcases ha : acceptMove (w.objective - p.objective x) temperature (w.tape.skip m) with
    ⟨accepted, tape₂⟩
  rw [ha, ← Tape.skip_add] at htrial
  change tape₂ = _ at htrial
  subst htrial
  simp only [hx, ha] at hpropose
  -- On another tape the neighbour and the decision are the same, and both end as far on.
  have hagain : ∀ u, w.tape.Agrees m u → p.neighbor w.current u = (x, u.skip m) := by
    intro u hu
    rw [hneighbor u hu, hx]
  have hagain' : ∀ u, w.tape.Agrees (m + k) u → p.neighbor w.current u = (x, u.skip m) ∧
      acceptMove (w.objective - p.objective x) temperature (u.skip m) =
        (accepted, u.skip (m + k)) := by
    intro u hu
    obtain ⟨hfirst, hrest⟩ := Tape.agrees_add.mp hu
    refine ⟨hagain u hfirst, ?_⟩
    rw [hdecide _ hrest, ha, Tape.skip_add u]
  obtain ⟨hf, heq⟩ | ⟨hf, rfl, heq⟩ | ⟨hf, rfl, heq⟩ := hpropose
  · cases heq
    refine ⟨m, hleast, by omega, rfl, ?_⟩
    intro u hu
    simp only [propose, withTape, hagain u hu, hf]
    rfl
  · cases heq
    refine ⟨m + k, by omega, by omega, rfl, ?_⟩
    intro u hu
    simp only [propose, withTape, hagain' u hu, hf]
    rfl
  · cases heq
    refine ⟨m + k, by omega, by omega, rfl, ?_⟩
    intro u hu
    simp only [propose, withTape, hagain' u hu, hf]
    rfl

theorem level_withTape (hp : p.Draws least most) {k : Nat}
    (h : w.level p observe temperature k seen = .ok (w', seen')) :
    ∃ n, Repeats (fun v v' => v.level p observe temperature k seen = .ok (v', seen')) n w w' := by
  induction k generalizing w seen with
  | zero =>
    cases h
    exact ⟨0, rfl, fun u _ => rfl⟩
  | succ k ih =>
    rw [level] at h
    split at h
    case h_1 => cases h
    case h_2 w₁ hw₁ =>
      obtain ⟨m, -, -, hm⟩ := propose_withTape hp hw₁
      obtain ⟨n, hn⟩ := ih h
      refine ⟨m + n, hm.trans hn ?_⟩
      intro u u₁ u' hfirst hrest
      rw [level, hfirst]
      exact hrest
    case h_3 w₁ hw₁ =>
      obtain ⟨m, -, -, hm⟩ := propose_withTape hp hw₁
      obtain ⟨n, hn⟩ := ih h
      refine ⟨m + n, hm.trans hn ?_⟩
      intro u u₁ u' hfirst hrest
      rw [level, hfirst]
      exact hrest

theorem levels_withTape (hp : p.Draws least most) {count : Nat} {final : Float}
    (h : w.levels p s observe count temperature seen = .ok (final, w', seen')) :
    ∃ n, Repeats (fun v v' =>
      v.levels p s observe count temperature seen = .ok (final, v', seen')) n w w' := by
  induction count generalizing temperature w seen with
  | zero =>
    cases h
    exact ⟨0, rfl, fun u _ => rfl⟩
  | succ count ih =>
    rw [levels] at h
    split at h
    case h_1 => cases h
    case h_2 w₁ seen₁ hw₁ =>
      obtain ⟨m, hm⟩ := level_withTape hp hw₁
      obtain ⟨n, hn⟩ := ih h
      refine ⟨m + n, hm.trans hn ?_⟩
      intro u u₁ u' hfirst hrest
      rw [levels, hfirst]
      exact hrest

/-- The number of levels that a descent visits is a matter of the settings. -/
theorem descend_eq_of_descend {patience passed : Nat} {r : Nat × Float × Walk σ × ω}
    (h : w.descend p s observe patience passed temperature seen = .ok r)
    (v : Walk σ) (seen₂ : ω) :
    v.descend p s observe patience passed temperature seen₂ =
      (v.levels p s observe (r.1 - passed) temperature seen₂).map (r.1, ·) := by
  induction patience, passed, temperature, w, seen using descend.induct p s observe
    generalizing v seen₂ with
  | case1 patience passed temperature w seen above tape broken =>
    rw [descend, if_pos above, broken] at h
    cases h
  | case2 patience passed temperature w seen above w' seen' visited next cooled falls ih =>
    rw [descend, if_pos above, visited] at h
    simp only [dif_pos falls] at h
    have hlt := (levels_of_descend h).1
    rw [descend, if_pos above, show r.1 - passed = r.1 - (passed + 1) + 1 by omega, levels]
    cases v.level p observe temperature s.proposals seen₂ with
    | error tape => rfl
    | ok visited => simp only [dif_pos falls]; exact ih h _ _
  | case3 passed temperature w seen above w' seen' visited falls =>
    rw [descend, if_pos above, visited] at h
    simp only [dif_neg falls, Except.ok.injEq] at h
    subst h
    rw [descend, if_pos above, show passed + 1 - passed = 0 + 1 by omega, levels]
    cases v.level p observe temperature s.proposals seen₂ with
    | error tape => rfl
    | ok visited => simp only [dif_neg falls]; rfl
  | case4 passed temperature w seen above w' seen' visited next cooled falls patience ih =>
    rw [descend, if_pos above, visited] at h
    simp only [dif_neg falls] at h
    have hlt := (levels_of_descend h).1
    rw [descend, if_pos above, show r.1 - passed = r.1 - (passed + 1) + 1 by omega, levels]
    cases v.level p observe temperature s.proposals seen₂ with
    | error tape => rfl
    | ok visited => simp only [dif_neg falls]; exact ih h _ _
  | case5 patience passed temperature w seen frozen =>
    rw [descend, if_neg frozen, Except.ok.injEq] at h
    subst h
    rw [descend, if_neg frozen, Nat.sub_self, levels]
    rfl

/-! ## The number of words -/

/-- The words that have been read lie between the bounds for the proposals that were made. -/
theorem Reach.words (hp : p.Draws least most) {start : Walk σ} {events : List (Event σ)}
    (hstart : start.proposals = 0) (h : Reach p start w events) :
    ∃ n, w.tape = start.tape.skip n ∧ least * w.proposals ≤ n ∧
      n ≤ (most + 2) * w.proposals := by
  refine h.keep (P := fun w => ∃ n, w.tape = start.tape.skip n ∧ least * w.proposals ≤ n ∧
    n ≤ (most + 2) * w.proposals) ?_ ?_
  · rintro temperature w w' moved hw ⟨n, htape, hlow, hhigh⟩
    obtain ⟨k, hleast, hmost, hk⟩ := propose_withTape hp hw
    refine ⟨n + k, by rw [hk.tape_eq, htape, Tape.skip_add], ?_, ?_⟩
    · rw [proposals_of_propose hw, Nat.mul_succ]
      exact Nat.add_le_add hlow hleast
    · rw [proposals_of_propose hw, Nat.mul_succ]
      exact Nat.add_le_add hhigh hmost
  · exact ⟨0, rfl, by simp [hstart], Nat.zero_le _⟩

/-- If the start is its own and only neighbour, nothing is ever read. -/
theorem Reach.tape_of_fixed {x : σ} (hneighbor : ∀ t, p.neighbor x t = (x, t))
    (hcost : p.objective x - p.objective x ≤ 0.0) {start : Walk σ} {events : List (Event σ)}
    (hstart : start.current = x ∧ start.objective = p.objective x)
    (h : Reach p start w events) :
    w.current = x ∧ w.objective = p.objective x ∧ w.tape = start.tape := by
  refine h.keep (P := fun w => w.current = x ∧ w.objective = p.objective x ∧
    w.tape = start.tape) ?_ ?_
  · rintro temperature w w' moved hw ⟨hcurrent, hobjective, htape⟩
    have hpropose := propose_cases hw
    simp only [hcurrent, hneighbor, hobjective, acceptMove, if_pos hcost] at hpropose
    obtain ⟨-, heq⟩ | ⟨-, hrefused, -⟩ | ⟨-, -, heq⟩ := hpropose
    · cases heq
      exact ⟨hcurrent, hobjective, htape⟩
    · cases hrefused
    · cases heq
      exact ⟨rfl, rfl, htape⟩
  · exact ⟨hstart.1, hstart.2, rfl⟩

end Walk

/-! ## Searches -/

section
variable {t t' : Tape} {o : Outcome σ}

/-- A search that has read `n` words has the same outcome on every tape that begins with them. -/
theorem observedSearch_replay (hp : p.Draws least most) {seen seen' : ω}
    (h : observedSearch p s observe seen t = (.ok (o, seen'), t')) :
    ∃ n, t' = t.skip n ∧ (∀ u, t.Agrees n u →
        observedSearch p s observe seen u = (.ok (o, seen'), u.skip n)) ∧
      least * o.proposals ≤ n ∧ n ≤ (most + 2) * o.proposals := by
  obtain ⟨valid, start, count, final, w, hstart, hw, hfrozen, rfl, rfl⟩ :=
    observedSearch_eq_ok_iff.mp h
  have hlevels := (Walk.levels_of_descend hw).2
  obtain ⟨n, hn⟩ := Walk.levels_withTape hp hlevels
  have htape := hn.tape_eq
  have hagain := hn.again
  have htape₀ := (Walk.start_withTape hp hstart t).1
  rw [htape₀] at htape hagain
  have hr₀ : Walk.Reach p start start [] := .start
  obtain ⟨events, hr, -⟩ := hr₀.descend hw
  have hproposals : start.proposals = 0 := by rw [(Walk.start_eq_ok hstart).2]
  obtain ⟨n', htape', hlow, hhigh⟩ := hr.words hp hproposals
  rw [htape₀, htape] at htape'
  obtain rfl := Tape.skip_injective htape'
  refine ⟨n, htape, ?_, hlow, hhigh⟩
  intro u hu
  have hdescend := Walk.descend_eq_of_descend hw (start.withTape u) seen
  rw [hagain u hu] at hdescend
  exact observedSearch_eq_ok_iff.mpr ⟨valid, start.withTape u, count, final,
    w.withTape (u.skip n), (Walk.start_withTape hp hstart u).2, hdescend, hfrozen, rfl, rfl⟩

theorem tracedSearch_replay (hp : p.Draws least most) {events : List (Event σ)}
    (h : tracedSearch p s t = (.ok (o, events), t')) :
    ∃ n, t' = t.skip n ∧
      (∀ u, t.Agrees n u → tracedSearch p s u = (.ok (o, events), u.skip n)) ∧
      least * o.proposals ≤ n ∧ n ≤ (most + 2) * o.proposals := by
  simp only [tracedSearch_eq_ok_iff] at h ⊢
  exact observedSearch_replay hp h

theorem tape_of_tracedSearch_fixed {x : σ} (hstart : ∀ t, p.start t = (x, t))
    (hneighbor : ∀ t, p.neighbor x t = (x, t)) (hcost : p.objective x - p.objective x ≤ 0.0)
    {events : List (Event σ)} (h : tracedSearch p s t = (.ok (o, events), t')) : t' = t := by
  obtain ⟨-, start, count, final, w, hw₀, hw, -, -, rfl⟩ :=
    observedSearch_eq_ok_iff.mp (tracedSearch_eq_ok_iff.mp h)
  have hr₀ : Walk.Reach p start start [] := .start
  obtain ⟨events', hr, -⟩ := hr₀.descend hw
  have hstart' := (Walk.start_eq_ok hw₀).2
  rw [hstart t] at hstart'
  have hfixed := hr.tape_of_fixed hneighbor hcost (by rw [hstart']; exact ⟨rfl, rfl⟩)
  rw [hfixed.2.2, hstart']

/-- A search depends on the words that it has read and on no others: it is the same on every
tape that has these next, with the same events, and leaves it equally far on. It reads none if
there is nothing to choose from, and otherwise between one and four for each proposal. -/
def Problem.Replays (p : Problem σ) (s : Settings) (t t' : Tape) (o : Outcome σ)
    (events : List (Event σ)) : Prop :=
  ∃ n, t' = t.skip n ∧
    (∀ u, t.Agrees n u → tracedSearch p s u = (.ok (o, events), u.skip n)) ∧
    (p.size = 0 → n = 0) ∧ (0 < p.size → o.proposals ≤ n ∧ n ≤ 4 * o.proposals)

/-- The start is given, and a neighbour differs in the element at an index that is drawn. -/
structure Problem.Toggles (p : Problem σ) (start : σ) (toggle : σ → Fin p.size → σ) : Prop where
  start_eq : ∀ t, p.start t = (start, t)
  neighbor_eq : ∀ (h : 0 < p.size) x t,
    p.neighbor x t = (toggle x (t.nextIndex p.size h).1, (t.nextIndex p.size h).2)
  neighbor_self : p.size = 0 → ∀ x t, p.neighbor x t = (x, t)
  cost_start : p.objective start - p.objective start ≤ 0.0

section
variable {x₀ : σ} {toggle : σ → Fin p.size → σ}

theorem Problem.Toggles.draws (hp : p.Toggles x₀ toggle) (hsize : 0 < p.size) : p.Draws 1 2 where
  start := Tape.reads_zero hp.start_eq
  neighbor x t := by
    obtain ⟨n, hlow, hhigh, hreads⟩ := Tape.reads_nextIndex hsize t
    rw [funext (hp.neighbor_eq hsize x)]
    exact ⟨n, hlow, hhigh, hreads.map (toggle x)⟩

theorem Problem.Toggles.draws_none (hp : p.Toggles x₀ toggle) (hsize : p.size = 0) :
    p.Draws 0 0 where
  start := Tape.reads_zero hp.start_eq
  neighbor x t := ⟨0, Nat.le_refl 0, Nat.le_refl 0, Tape.reads_zero (hp.neighbor_self hsize x) t⟩

theorem Problem.Toggles.replays (hp : p.Toggles x₀ toggle) {events : List (Event σ)}
    (h : tracedSearch p s t = (.ok (o, events), t')) : p.Replays s t t' o events := by
  rcases Nat.eq_zero_or_pos p.size with hsize | hsize
  · obtain ⟨n, ht, hagain, -⟩ := tracedSearch_replay (hp.draws_none hsize) h
    have hnone : t.skip n = t.skip 0 := by
      rw [← ht]
      exact tape_of_tracedSearch_fixed hp.start_eq (hp.neighbor_self hsize x₀) hp.cost_start h
    exact ⟨n, ht, hagain, fun _ => Tape.skip_injective hnone,
      fun hpos => absurd hsize (Nat.ne_of_gt hpos)⟩
  · obtain ⟨n, ht, hagain, hlow, hhigh⟩ := tracedSearch_replay (hp.draws hsize) h
    rw [Nat.one_mul] at hlow
    exact ⟨n, ht, hagain, fun hnone => absurd hnone (Nat.ne_of_gt hsize), fun _ => ⟨hlow, hhigh⟩⟩

end
end

theorem Knapsack.Instance.toggles (i : Knapsack.Instance) :
    i.problem.Toggles (.empty _) fun s k => s.toggle k (i.item k) where
  start_eq _ := rfl
  neighbor_eq h s t := dif_pos h
  neighbor_self h s t := dif_neg (Nat.not_lt_of_le (Nat.le_of_eq h))
  cost_start := by
    change UInt64.toFloat 0 - UInt64.toFloat 0 ≤ 0.0
    decide +kernel

theorem Satisfiability.Instance.toggles (i : Satisfiability.Instance) :
    i.problem.Toggles (.allFalse _) fun a k => a.toggle k (i.term k) where
  start_eq _ := rfl
  neighbor_eq h a t := dif_pos h
  neighbor_self h a t := dif_neg (Nat.not_lt_of_le (Nat.le_of_eq h))
  cost_start := by
    change UInt64.toFloat 0 - UInt64.toFloat 0 ≤ 0.0
    decide +kernel

/-- Searches for selections of items and for assignments of terms can be replayed from the words
that they have read. -/
theorem tracedSearch_replays :
    (∀ (i : Knapsack.Instance) s t t' o events,
      tracedSearch i.problem s t = (.ok (o, events), t') → i.problem.Replays s t t' o events) ∧
    ∀ (i : Satisfiability.Instance) s t t' o events,
      tracedSearch i.problem s t = (.ok (o, events), t') → i.problem.Replays s t t' o events := by
  constructor
  · intro i s t t' o events h
    exact i.toggles.replays h
  · intro i s t t' o events h
    exact i.toggles.replays h

/-- One item, which fits. -/
def oneItem : Knapsack.Instance := ⟨1, 1, #[⟨1, 1⟩]⟩

/-- No terms, and no clauses. -/
def noTerms : Satisfiability.Instance := ⟨2, #[], []⟩

/-- One proposal at one level. -/
def oneProposal : Settings where
  initial := 8.0
  threshold := 4.0
  factor := 0.5
  proposals := 1

theorem tracedSearch_oneItem :
    ∃ o events, tracedSearch oneItem.problem oneProposal (.cyclic #[0]) =
      (.ok (o, events), (Tape.cyclic #[0]).skip 1) := by
  have hvalid : oneProposal.Valid := by decide +kernel
  have hcount : oneProposal.levelCount? = some 1 := by decide +kernel
  obtain ⟨packed, hpacked⟩ : ∃ packed : Knapsack.Selection 1, packed = ⟨#v[true], 1, 1⟩ :=
    ⟨_, rfl⟩
  have hcost : (Knapsack.Selection.empty 1).merit - packed.merit ≤ 0.0 := by
    rw [hpacked]
    decide +kernel
  obtain ⟨t, ht⟩ : ∃ t, t = Tape.cyclic #[0] := ⟨_, rfl⟩
  obtain ⟨w, hw⟩ : ∃ w, Walk.start oneItem.problem t = .ok w := ⟨_, rfl⟩
  have hmove : w.propose oneItem.problem 8.0 =
      .ok ((w.stay t.advance).move packed packed.merit, true) := by
    subst ht hpacked
    cases hw
    exact Walk.propose_of_cost_le rfl rfl hcost
  have hlevels : w.levels oneItem.problem oneProposal (fun seen event => event :: seen) 1
      oneProposal.initial [] = .ok (8.0 * 0.5, (w.stay t.advance).move packed packed.merit,
        [.cooled 8.0 (8.0 * 0.5), .accepted packed packed.merit 8.0]) := by
    simp only [Walk.levels, Walk.level, oneProposal, hmove, Settings.cool]
    rfl
  rw [← ht]
  exact ⟨_, _, tracedSearch_eq_levels hvalid hcount hw hlevels⟩

theorem tracedSearch_replays_oneItem :
    (∃ o events, tracedSearch oneItem.problem oneProposal (.cyclic #[0]) =
        (.ok (o, events), (Tape.cyclic #[0]).skip 1) ∧
      tracedSearch oneItem.problem oneProposal (.cyclic #[0, 7]) =
        (.ok (o, events), (Tape.cyclic #[0, 7]).skip 1)) ∧
    ∃ o events, tracedSearch noTerms.problem oneProposal (.cyclic #[0]) =
      (.ok (o, events), .cyclic #[0]) := by
  obtain ⟨hselections, hassignments⟩ := tracedSearch_replays
  constructor
  · obtain ⟨o, events, hrun⟩ := tracedSearch_oneItem
    obtain ⟨n, ht, hagain, -⟩ := hselections _ _ _ _ _ _ hrun
    obtain rfl := Tape.skip_injective ht
    refine ⟨o, events, hrun, hagain _ ?_⟩
    intro j hj
    obtain rfl : j = 0 := by omega
    rw [Tape.cyclic, Tape.cyclic, Tape.word_ofWords, Tape.word_ofWords]
    rfl
  · have hvalid : oneProposal.Valid := by decide +kernel
    have hcount : oneProposal.levelCount? = some 1 := by decide +kernel
    obtain ⟨o, events, t, hrun⟩ := tracedSearch_ok (p := noTerms.problem) (t := .cyclic #[0])
      hvalid hcount fun _ => rfl
    obtain ⟨n, ht, -, hnone, -⟩ := hassignments _ _ _ _ _ _ hrun
    obtain rfl := hnone rfl
    rw [ht] at hrun
    exact ⟨o, events, hrun⟩

end Annealing
