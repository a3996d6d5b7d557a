import Annealing.Knapsack.Search
import Annealing.Proofs.Knapsack.Prices
import Annealing.Satisfiability.Search

/-!
# Walks of single flips

The state of a knapsack search, and that of a satisfiability search, has a row
of bits. A move draws an index and turns the bit there. Proposals that are not
accepted leave the state alone, so each accepted state differs from the one
held before it in one bit. The search starts with no bit set. Every accepted
move sets one or clears one, so at the end there are at most as many set as
there were accepted moves, and both numbers are even or both are odd.
-/
namespace Annealing

/-! ## Drawn indexes -/

namespace Tape

/-- The index below `n` that is drawn at the head of a tape. It is the whole part of `w · n / 2³²`
for the word `w` there. It is one more if the remainder is above `2³² - n` and what the next
word adds to it makes it `2³²` or more. -/
def drawnIndex (t : Tape) (n : Nat) : Nat :=
  let scaled := (t.word t.position).toNat * n
  let finer := (t.word (t.position + 1)).toNat * n
  if 2 ^ 32 - n < scaled % 2 ^ 32 ∧ 2 ^ 32 ≤ scaled % 2 ^ 32 + finer / 2 ^ 32 then
    scaled / 2 ^ 32 + 1
  else scaled / 2 ^ 32

theorem head_advance (t : Tape) : t.advance.head = t.word (t.position + 1) := by
  rw [head_eq_word, position_advance, word, word]
  simp only [page_advance]

theorem val_nextIndex (t : Tape) {n : Nat} (hn : 0 < n) :
    (t.nextIndex n hn).1.val = t.drawnIndex n := by
  have hsize : UInt32.size = 2 ^ 32 := rfl
  unfold nextIndex
  simp only [next, head_eq_word t, head_advance, hsize]
  unfold drawnIndex
  by_cases hclose : 2 ^ 32 - n < (t.word t.position).toNat * n % 2 ^ 32
  · simp only [hclose, true_and, if_true, scaled, hsize]
  · have hrest : (t.word t.position).toNat * n % 2 ^ 32 < 2 ^ 32 := Nat.mod_lt _ (by decide)
    simp only [hclose, false_and, if_false, scaled, hsize, Nat.zero_mul, Nat.zero_div,
      Nat.add_zero, if_neg (Nat.not_le_of_lt hrest)]

/-- The remainder of the first word is `2³² - 1`, and the second word adds one to it. -/
example : (Tape.cyclic #[0x55555555, 0x80000000]).drawnIndex 3 = 1 := by decide

end Tape

/-! ## Flipped bits -/

section
variable {n : Nat} {k : Fin n} {xs ys : Vector Bool n}

/-- Two rows of bits differ at a position and nowhere else. -/
def FlippedAt (k : Fin n) (xs ys : Vector Bool n) : Prop := ∀ j, ys.get j ≠ xs.get j ↔ j = k

theorem flippedAt_set (k : Fin n) (xs : Vector Bool n) :
    FlippedAt k xs (xs.set k (!xs.get k) k.isLt) := by
  intro j
  by_cases hj : j = k
  · rw [hj, Totals.get_set_self]
    simp
  · rw [Totals.get_set_ne hj]
    simp [hj]

theorem FlippedAt.eq_set (h : FlippedAt k xs ys) : ys = xs.set k (!xs.get k) k.isLt := by
  apply Vector.ext
  intro j hj
  change ys.get ⟨j, hj⟩ = (xs.set k (!xs.get k) k.isLt).get ⟨j, hj⟩
  by_cases heq : ⟨j, hj⟩ = k
  · rw [heq, Totals.get_set_self]
    exact Bool.eq_not_of_ne ((h k).mpr rfl)
  · rw [Totals.get_set_ne heq]
    exact not_not.mp (mt (h _).mp heq)

/-- A flip sets a bit or clears one. -/
theorem FlippedAt.count (h : FlippedAt k xs ys) :
    ys.count true = xs.count true + 1 ∨ ys.count true + 1 = xs.count true := by
  have hcount : ys.count true = xs.count true - (if (xs.get k == true) = true then 1 else 0) +
      (if ((!xs.get k) == true) = true then 1 else 0) := by
    rw [h.eq_set]
    exact Vector.count_set k.isLt
  cases hk : xs.get k with
  | false =>
    rw [hk] at hcount
    exact .inl hcount
  | true =>
    have hpos : 0 < xs.count true := Vector.count_pos_iff.mpr (hk ▸ Vector.getElem_mem k.isLt)
    rw [hk] at hcount
    simp only [beq_self_eq_true, if_true, Bool.not_true, Bool.false_beq, Bool.false_eq_true,
      if_false] at hcount
    omega

end

/-! ## Walks -/

variable {σ : Type} {n : Nat} {bits : σ → Vector Bool n} {p : Problem σ} {t : Tape}

/-- A search starts with no bit set, and every move flips the bit at the index that is drawn. -/
structure Problem.Flips (p : Problem σ) (bits : σ → Vector Bool n) : Prop where
  start : ∀ t, bits (p.start t).1 = Vector.replicate n false
  neighbor : ∀ x t, ∃ k : Fin n, (k : Nat) = t.drawnIndex n ∧
    FlippedAt k (bits x) (bits (p.neighbor x t).1)

/-- The bits of two states differ at one position. -/
def OneFlip (bits : σ → Vector Bool n) (x y : σ) : Prop := ∃ k, FlippedAt k (bits x) (bits y)

/-- Each accepted state is a neighbour of the state held before it. -/
theorem Walk.Reach.isChain {start w : Walk σ} {events : List (Event σ)}
    (hstart : Walk.start p t = .ok start) (h : Reach p start w events) :
    ((p.start t).1 :: acceptedStates events).IsChain fun x y => ∃ t, y = (p.neighbor x t).1 := by
  induction h with
  | start => exact .singleton _
  | stay _ _ ih => exact ih
  | @move w w' events temperature hr hw ih =>
    have hheld : ((p.start t).1 :: acceptedStates events).getLast? = some w.current := by
      rw [List.getLast?_cons, ← List.getLastD_eq_getLast?, (hr.tracks hstart).current_eq]
    have hnext : w'.current = (p.neighbor w.current w.tape).1 := by
      obtain ⟨-, heq⟩ | ⟨-, -, heq⟩ | ⟨-, -, heq⟩ := propose_cases hw
      all_goals cases heq
      rfl
    rw [acceptedStates_concat_accepted, ← List.cons_append]
    apply ih.append (.singleton _)
    intro x hx y hy
    rw [hheld, Option.mem_some] at hx
    rw [List.head?_cons, Option.mem_some] at hy
    exact ⟨w.tape, by rw [← hx, ← hy, hnext]⟩
  | cool _ _ _ ih =>
    rw [acceptedStates_concat_cooled]
    exact ih

/-- Along a row of flips the number of set bits goes up or down by one at each. -/
theorem count_of_isChain {start : σ} {states : List σ}
    (h : (start :: states).IsChain (OneFlip bits)) :
    (bits (states.getLastD start)).count true ≤ (bits start).count true + states.length ∧
      (bits (states.getLastD start)).count true % 2 =
        ((bits start).count true + states.length) % 2 := by
  induction states generalizing start with
  | nil => simp
  | cons x states ih =>
    obtain ⟨⟨k, hflip⟩, hrest⟩ := List.isChain_cons_cons.mp h
    obtain ⟨hle, hparity⟩ := ih hrest
    rw [List.getLastD_cons, List.length_cons]
    cases hflip.count with
    | inl hset => omega
    | inr hcleared => omega

/-- Each accepted state differs in one bit from the state held before it. So the last state has
at most as many bits as there were accepted moves, and as many modulo two. -/
structure Outcome.ByFlips (bits : σ → Vector Bool n) (start : σ) (accepted : List σ)
    (o : Outcome σ) : Prop where
  isChain : (start :: accepted).IsChain (OneFlip bits)
  count_le : (bits o.last).count true ≤ o.accepted
  count_mod : (bits o.last).count true % 2 = o.accepted % 2

theorem Outcome.Found.byFlips (hp : p.Flips bits) {events : List (Event σ)} {o : Outcome σ}
    (h : o.Found p t events) : o.ByFlips bits (p.start t).1 (acceptedStates events) := by
  obtain ⟨start, w, levels, final, hstart, hr, rfl⟩ := h
  have htracks := hr.tracks hstart
  have hchain : ((p.start t).1 :: acceptedStates events).IsChain (OneFlip bits) := by
    apply (hr.isChain hstart).imp
    rintro x _ ⟨t, rfl⟩
    obtain ⟨k, -, hflip⟩ := hp.neighbor x t
    exact ⟨k, hflip⟩
  obtain ⟨hle, hparity⟩ := count_of_isChain hchain
  have hnone : (bits (p.start t).1).count true = 0 := by
    rw [hp.start, Vector.count_replicate]
    rfl
  rw [hnone, Nat.zero_add, ← htracks.current_eq, ← htracks.accepted_eq] at hle hparity
  exact ⟨hchain, hle, hparity⟩

/-! ## Selections and assignments -/

theorem Knapsack.Selection.flippedAt_toggle {n : Nat} (s : Knapsack.Selection n) (k : Fin n)
    (item : Knapsack.Item) : FlippedAt k s.bits (s.toggle k item).bits := by
  have hbit : s.contains k = s.bits.get k := rfl
  have htoggle : (s.toggle k item).bits = s.bits.set k (!s.bits.get k) k.isLt := by
    cases hk : s.bits.get k with
    | false => simp [toggle, add, hbit, hk]
    | true => simp [toggle, remove, hbit, hk]
  rw [htoggle]
  exact flippedAt_set k s.bits

theorem Knapsack.Instance.flips {i : Knapsack.Instance} (hi : 0 < i.items.size) :
    i.problem.Flips Knapsack.Selection.bits where
  start _ := rfl
  neighbor s t := by
    refine ⟨(t.nextIndex i.items.size hi).1, t.val_nextIndex hi, ?_⟩
    change FlippedAt _ s.bits (i.neighbor s t).1.bits
    simp only [neighbor, dif_pos hi]
    exact s.flippedAt_toggle _ _

theorem Satisfiability.Assignment.flippedAt_toggle {n : Nat} (a : Satisfiability.Assignment n)
    (k : Fin n) (term : Satisfiability.Term) :
    FlippedAt k a.values (a.toggle k term).values := by
  have hbit : a.value k = a.values.get k := rfl
  have htoggle : (a.toggle k term).values = a.values.set k (!a.values.get k) k.isLt := by
    cases hk : a.values.get k with
    | false => simp [toggle, set, hbit, hk]
    | true => simp [toggle, set, hbit, hk]
  rw [htoggle]
  exact flippedAt_set k a.values

theorem Satisfiability.Instance.flips {i : Satisfiability.Instance} (hi : 0 < i.terms.size) :
    i.problem.Flips Satisfiability.Assignment.values where
  start _ := rfl
  neighbor a t := by
    refine ⟨(t.nextIndex i.terms.size hi).1, t.val_nextIndex hi, ?_⟩
    change FlippedAt _ a.values (i.neighbor a t).1.values
    simp only [neighbor, dif_pos hi]
    exact a.flippedAt_toggle _ _

/-- A search for a selection of items or an assignment of terms flips one bit at a time, at the
index that is drawn from the tape. -/
theorem tracedSearch_flips :
    (∀ i : Knapsack.Instance, 0 < i.items.size → i.problem.Flips Knapsack.Selection.bits ∧
      ∀ s t t' o events, tracedSearch i.problem s t = (.ok (o, events), t') →
        o.ByFlips Knapsack.Selection.bits (.empty _) (acceptedStates events)) ∧
    ∀ i : Satisfiability.Instance, 0 < i.terms.size →
      i.problem.Flips Satisfiability.Assignment.values ∧
      ∀ s t t' o events, tracedSearch i.problem s t = (.ok (o, events), t') →
        o.ByFlips Satisfiability.Assignment.values (.allFalse _) (acceptedStates events) := by
  constructor
  · intro i hi
    refine ⟨Knapsack.Instance.flips hi, ?_⟩
    intro s t t' o events h
    exact (found_of_tracedSearch h).byFlips (Knapsack.Instance.flips hi)
  · intro i hi
    refine ⟨Satisfiability.Instance.flips hi, ?_⟩
    intro s t t' o events h
    exact (found_of_tracedSearch h).byFlips (Satisfiability.Instance.flips hi)

/-- One term and no clauses. -/
def oneTerm : Satisfiability.Instance := ⟨1, #[⟨"1", 1⟩], []⟩

open Knapsack in
theorem tracedSearch_flips_unevenItems :
    (∃ k : Fin 2, (k : Nat) = (Tape.cyclic #[0x80000000]).drawnIndex 2 ∧
      FlippedAt k #v[true, false] (unevenItems.neighbor firstItem (.cyclic #[0x80000000])).1.bits) ∧
    (∃ o events t, tracedSearch unevenItems.problem twoProposals (.cyclic #[0, 0x80000000]) =
        (.ok (o, events), t) ∧ acceptedStates events = [firstItem, bothItems] ∧
      o.ByFlips Selection.bits (.empty _) [firstItem, bothItems]) ∧
    ∃ o events t, tracedSearch oneTerm.problem twoProposals (.cyclic #[0]) =
        (.ok (o, events), t) ∧
      o.ByFlips Satisfiability.Assignment.values (.allFalse _) (acceptedStates events) := by
  obtain ⟨hselections, hassignments⟩ := tracedSearch_flips
  obtain ⟨hitems, hselected⟩ := hselections unevenItems (by decide)
  obtain ⟨-, hassigned⟩ := hassignments oneTerm (by decide)
  obtain ⟨o, events, t, hrun, -, haccepted⟩ := tracedSearch_unevenItems
  have hvalid : twoProposals.Valid := by decide +kernel
  have hcount : twoProposals.levelCount? = some 1 := by decide +kernel
  obtain ⟨o', events', t', hrun'⟩ := tracedSearch_ok (p := oneTerm.problem) (t := .cyclic #[0])
    hvalid hcount fun _ => rfl
  have hflips := hselected _ _ _ _ _ hrun
  rw [haccepted] at hflips
  exact ⟨hitems.neighbor firstItem _, ⟨o, events, t, hrun, haccepted, hflips⟩,
    o', events', t', hrun', hassigned _ _ _ _ _ hrun'⟩

end Annealing
