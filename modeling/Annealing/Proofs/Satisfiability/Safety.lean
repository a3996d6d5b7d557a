import Annealing.Proofs.Satisfiability.Assignment
import Annealing.Proofs.Text.Lines

/-!
# Safety of instances that were read

The instances of a text are numbered in the order of their blocks, and there
are at most as many as the text has characters. Each of them can be evaluated
at every assignment, since no literal points outside. The weight of an
assignment that has been made from the one with no true term, by giving terms
values one after the other, stays in the range of words whatever term is given
which value next.
-/
namespace Annealing.Satisfiability

open Text Totals

/-! ## Numbers of instances -/

namespace Reading

variable {r r' : Reading}

theorem size_allBlocks_close (h : r.close = .ok r') : r'.allBlocks.size = r.allBlocks.size := by
  rcases close_eq_ok_iff.mp h with ⟨-, rfl⟩ | ⟨b, hb, -, rfl⟩
  · rfl
  · simp [allBlocks, hb]

theorem size_allBlocks_open (r : Reading) (b : Block) :
    { r with current? := some b : Reading }.allBlocks.size ≤ r.allBlocks.size + 1 := by
  cases hr : r.current? with
  | none => simp [allBlocks, hr]
  | some b' => simp [allBlocks, hr]

/-- A line opens one block at most. -/
theorem size_allBlocks_feed {line : List Char × Nat} (h : r.feed line = .ok r') :
    r'.allBlocks.size ≤ r.allBlocks.size + 1 := by
  rcases feed_cases h with hclose | ⟨r₁, b, hclose, -, rfl⟩ | ⟨b, b', -, rfl, -⟩
  · exact (size_allBlocks_close hclose).trans_le (Nat.le_succ _)
  · rw [← size_allBlocks_close hclose]
    exact size_allBlocks_open r₁ b
  · exact size_allBlocks_open r b'

theorem size_allBlocks_foldlM {lines : List (List Char × Nat)}
    (h : lines.foldlM feed r = .ok r') :
    r'.allBlocks.size ≤ r.allBlocks.size + lines.length := by
  induction lines generalizing r with
  | nil =>
    cases h
    exact le_rfl
  | cons line lines ih =>
    rw [List.foldlM_cons] at h
    obtain ⟨r₁, hfeed, h⟩ := andThen_eq_ok_iff.mp h
    have hline := size_allBlocks_feed hfeed
    have hlines := ih h
    rw [List.length_cons]
    omega

end Reading

theorem length_contentLines_le (cs : List Char) : (contentLines cs).length ≤ cs.length := by
  calc (contentLines cs).length ≤ (((lines cs).map trim).zipIdx 1).length :=
        (List.takeWhile_prefix _).length_le
    _ = (lines cs).length := by rw [List.length_zipIdx, List.length_map]
    _ ≤ cs.length := length_lines_le cs

theorem length_le_of_parse {text : String} {instances : List Instance}
    (h : parse text = .ok instances) : instances.length ≤ text.length := by
  obtain ⟨r₁, r₂, hlines, hclose, rfl⟩ := parse_eq_ok_iff.mp h
  calc r₂.instances.length = r₂.closed.size := by simp [Reading.instances]
    _ ≤ r₂.allBlocks.size := by
      unfold Reading.allBlocks
      split <;> simp
    _ = r₁.allBlocks.size := Reading.size_allBlocks_close hclose
    _ ≤ 0 + (contentLines text.toList).length := Reading.size_allBlocks_foldlM hlines
    _ ≤ text.length := by
      rw [Nat.zero_add, ← String.length_toList]
      exact length_contentLines_le _

theorem id_of_parse {text : String} {instances : List Instance} (h : parse text = .ok instances)
    {k : Nat} (hk : k < instances.length) : instances[k].id = .ofNat (k + 1) := by
  obtain ⟨-, r, -, -, rfl⟩ := parse_eq_ok_iff.mp h
  simp [Reading.instances, Block.toInstance]

/-! ## Assignments made step by step -/

/-- The assignments that are made from the one without true terms by giving terms values. -/
inductive Assignment.Reached (i : Instance) : Assignment i.terms.size → Prop
  | allFalse : Reached i (.allFalse _)
  | set {a : Assignment i.terms.size} (k : Fin i.terms.size) (value : Bool) :
      Reached i a → Reached i (a.set k (i.term k) value)

namespace Assignment.Reached

variable {i : Instance} {a : Assignment i.terms.size}

theorem toggle (h : a.Reached i) (k : Fin i.terms.size) : (a.toggle k (i.term k)).Reached i :=
  h.set k !(a.value k)

theorem neighbor (h : a.Reached i) (t : Tape) : (i.neighbor a t).1.Reached i := by
  unfold Instance.neighbor
  split
  case isTrue => exact h.toggle _
  case isFalse => exact h

theorem faithful (h : a.Reached i) (hi : i.WellFormed) : a.Faithful i := by
  induction h with
  | allFalse => exact .allFalse
  | set k value _ ih => exact ih.set hi.fits_weight k value

end Assignment.Reached

/-- A text that is read gives instances that are numbered from one and are safe to search:
literals name terms, every assignment can be evaluated, and no weight that is kept step by
step leaves the range of words. -/
theorem parse_safe {text : String} {instances : List Instance}
    (h : parse text = .ok instances) :
    (instances.length ≤ text.length ∧
      ∀ k (hk : k < instances.length), instances[k].id = .ofNat (k + 1)) ∧
    ∀ i ∈ instances,
      (∀ k (hk : k < i.terms.size), i.terms[k].name = (k + 1).repr) ∧
      (∀ c ∈ i.clauses, ∀ l ∈ c, l.term < i.terms.size) ∧
      (i.terms.toList.map fun term => term.weight.toNat).sum < UInt64.size ∧
      (∀ a : Assignment i.terms.size, i.satisfied? a = some (decide (i.Models a.values))) ∧
      ∀ a : Assignment i.terms.size, a.Reached i →
        (∀ t, (i.neighbor a t).1.Reached i) ∧
        a.weight.toNat = chosen i.weight a.values ∧
        ∀ k, (a.value k = false → a.weight.toNat + (i.weight k).toNat < UInt64.size) ∧
          (a.value k = true → i.weight k ≤ a.weight) := by
  refine ⟨⟨length_le_of_parse h, fun k hk => id_of_parse h hk⟩, ?_⟩
  intro i hmem
  have hi := wellFormed_of_parse h hmem
  have hsum : (i.terms.toList.map fun term => term.weight.toNat).sum < UInt64.size := by
    have hfits := isSome_sum?_iff.mp hi.fits
    rwa [List.map_map] at hfits
  refine ⟨hi.named, hi.inRange, hsum, hi.satisfied?_eq, ?_⟩
  intro a ha
  have hkept := ha.faithful hi
  refine ⟨ha.neighbor, hkept, ?_⟩
  intro k
  constructor
  · intro hk
    exact (hkept.add_le hk).trans_lt hi.fits_weight
  · intro hk
    exact hkept.word_le hk

/-- Weights that are given twice, the second time after a clause, and a block without terms. -/
def lateWeights : String :=
  "p cnf 2 2\nv 3 4\n1 -2 0\nv 18446744073709551610 5\nc x\np cnf 0 1\n0\n% p"

theorem parse_safe_lateWeights :
    ∃ i j, parse lateWeights = .ok [i, j] ∧ i.id = 1 ∧ j.id = 2 ∧
      (i.terms.toList.map fun term => term.weight.toNat).sum = 18446744073709551615 ∧
      (∀ c ∈ i.clauses, ∀ l ∈ c, l.term < i.terms.size) ∧
      ∀ a : Assignment i.terms.size, i.satisfied? a = some (decide (i.Models a.values)) := by
  have hparse : parse lateWeights =
      .ok [⟨1, #[⟨"1", 18446744073709551610⟩, ⟨"2", 5⟩], [[⟨0, false⟩, ⟨1, true⟩]]⟩,
        ⟨2, #[], [[]]⟩] := by rfl
  obtain ⟨⟨-, hid⟩, hsafe⟩ := parse_safe hparse
  obtain ⟨-, hrange, -, hsatisfied, -⟩ := hsafe _ List.mem_cons_self
  exact ⟨_, _, hparse, hid 0 (by decide), hid 1 (by decide), by decide, hrange, hsatisfied⟩

end Annealing.Satisfiability
