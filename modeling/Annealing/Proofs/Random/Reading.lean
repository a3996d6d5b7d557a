import Annealing.Search.Problem

/-!
# Reading a tape

What is read from a tape are the words under its head, one after the other.
Tapes that have the same next words give the same answer to an operation that
reads no more than these, and their heads are then equally far on. The
operations of a search read one or two words for an index, and none or two to
decide on a move.
-/
namespace Annealing

namespace Tape

/-- The tape with its head some words further on. -/
def skip (t : Tape) : Nat → Tape
  | 0 => t
  | n + 1 => (t.skip n).advance

section
variable {t u : Tape} {m n : Nat}

theorem skip_succ (t : Tape) (n : Nat) : t.skip (n + 1) = (t.skip n).advance := rfl

theorem skip_add (t : Tape) (m n : Nat) : t.skip (m + n) = (t.skip m).skip n := by
  induction n with
  | zero => rfl
  | succ n ih => rw [← Nat.add_assoc, skip_succ, ih, skip_succ]

@[simp] theorem position_skip (t : Tape) (n : Nat) : (t.skip n).position = t.position + n := by
  induction n with
  | zero => rfl
  | succ n ih => rw [skip_succ, position_advance, ih, Nat.add_assoc]

@[simp] theorem page_skip (t : Tape) (n : Nat) : (t.skip n).page = t.page := by
  induction n with
  | zero => rfl
  | succ n ih => rw [skip_succ, page_advance, ih]

theorem skip_injective (h : t.skip m = t.skip n) : m = n := by
  have hposition := congrArg position h
  simpa using hposition

/-- The next words under both heads are the same. -/
def Agrees (n : Nat) (t u : Tape) : Prop :=
  ∀ j < n, t.word (t.position + j) = u.word (u.position + j)

theorem Agrees.refl (n : Nat) (t : Tape) : Agrees n t t := fun _ _ => rfl

theorem Agrees.head_eq (h : Agrees (n + 1) t u) : t.head = u.head := by
  rw [head_eq_word, head_eq_word]
  exact h 0 (Nat.succ_pos n)

theorem word_skip (t : Tape) (m j : Nat) :
    (t.skip m).word ((t.skip m).position + j) = t.word (t.position + (m + j)) := by
  simp only [word, page_skip, position_skip, Nat.add_assoc]

theorem Agrees.head_advance_eq (h : Agrees (n + 2) t u) : t.advance.head = u.advance.head := by
  have hsecond := h 1 (by omega)
  rwa [← word_skip t 1 0, ← word_skip u 1 0, Nat.add_zero, Nat.add_zero, ← head_eq_word,
    ← head_eq_word] at hsecond

theorem agrees_add : Agrees (m + n) t u ↔ Agrees m t u ∧ Agrees n (t.skip m) (u.skip m) := by
  constructor
  · intro h
    refine ⟨fun j hj => h j (by omega), ?_⟩
    intro j hj
    rw [word_skip, word_skip]
    exact h (m + j) (by omega)
  · rintro ⟨hfirst, hrest⟩ j hj
    by_cases hjm : j < m
    · exact hfirst j hjm
    · have hj' := hrest (j - m) (by omega)
      rwa [word_skip, word_skip, show m + (j - m) = j by omega] at hj'

end

section
variable {α β : Type} {f : Tape → α × Tape} {n : Nat} {t : Tape}

/-- An operation reads the next words of a tape: where the same words are next, it has the same
answer and leaves the head behind them. -/
def Reads (f : Tape → α × Tape) (n : Nat) (t : Tape) : Prop :=
  ∀ u, Agrees n t u → f u = ((f t).1, u.skip n)

theorem Reads.snd_eq (h : Reads f n t) : (f t).2 = t.skip n := congrArg Prod.snd (h t (.refl n t))

/-- Nothing is read where the tape is only handed on. -/
theorem reads_zero {a : α} (h : ∀ u, f u = (a, u)) (t : Tape) : Reads f 0 t := by
  intro u _
  rw [h, h]
  rfl

theorem Reads.map (hf : Reads f n t) (k : α → β) : Reads (fun t => (k (f t).1, (f t).2)) n t := by
  intro u hu
  simp only [hf u hu]

theorem reads_nextWide (t : Tape) : Reads nextWide 2 t := by
  intro u hu
  simp only [nextWide, next, hu.head_eq, hu.head_advance_eq]
  rfl

theorem reads_nextUnit (t : Tape) : Reads nextUnit 2 t := by
  intro u hu
  simp only [nextUnit, reads_nextWide t u hu]

theorem nextIndex_eq {k : Nat} (hk : 0 < k) (t : Tape) : t.nextIndex k hk =
    if UInt32.size - k < t.head.toNat * k % UInt32.size then
      (⟨scaled k t.head.toNat t.advance.head.toNat,
        scaled_lt hk t.head.toNat_lt_size t.advance.head.toNat_lt_size⟩, t.skip 2)
    else (⟨scaled k t.head.toNat 0, scaled_lt hk t.head.toNat_lt_size (by decide)⟩, t.skip 1) :=
  rfl

/-- An index is drawn with one word, or with two. -/
theorem reads_nextIndex {k : Nat} (hk : 0 < k) (t : Tape) :
    ∃ n, 1 ≤ n ∧ n ≤ 2 ∧ Reads (fun t => t.nextIndex k hk) n t := by
  by_cases hclose : UInt32.size - k < t.head.toNat * k % UInt32.size
  · refine ⟨2, by decide, by decide, ?_⟩
    intro u hu
    have hclose' : UInt32.size - k < u.head.toNat * k % UInt32.size := hu.head_eq ▸ hclose
    simp only [nextIndex_eq, if_pos hclose', hu.head_eq, hu.head_advance_eq]
  · refine ⟨1, by decide, by decide, ?_⟩
    intro u hu
    have hclose' : ¬ UInt32.size - k < u.head.toNat * k % UInt32.size := hu.head_eq ▸ hclose
    simp only [nextIndex_eq, if_neg hclose', hu.head_eq]

end
end Tape

/-- A move is decided without reading, or with two words. -/
theorem reads_acceptMove (cost temperature : Float) (t : Tape) :
    ∃ n ≤ 2, Tape.Reads (acceptMove cost temperature) n t := by
  unfold acceptMove
  by_cases hcost : cost ≤ 0.0
  · simp only [if_pos hcost]
    exact ⟨0, Nat.zero_le 2, Tape.reads_zero (fun _ => rfl) t⟩
  · simp only [if_neg hcost]
    by_cases hcold : temperature ≤ 0.0
    · simp only [if_pos hcold]
      exact ⟨0, Nat.zero_le 2, Tape.reads_zero (fun _ => rfl) t⟩
    · simp only [if_neg hcold]
      refine ⟨2, Nat.le_refl 2, ?_⟩
      exact (Tape.reads_nextUnit t).map fun chance => decide (chance < (-cost / temperature).exp)

end Annealing
