import Annealing.Proofs.Attempts
import Annealing.Satisfiability.Format
import Mathlib.Data.List.Basic

/-!
# Satisfiability instances that were read

Every literal of a block is checked against the number of terms when its line
is read, and so is the number of weights. When a block is closed, the total of
its weights is checked to be a word. So every instance that a text is read as
is well formed: its terms are named by their numbers, which are words, all
literals name one of them, and no sum of weights overflows.
-/
namespace Annealing.Satisfiability

open Text

namespace Block

variable {b b' : Block}

theorem ofHeader_eq_ok_iff {number : Nat} {line : List Char} :
    ofHeader number line = .ok b ↔ ∃ terms declared count rest,
      words line = ['p'] :: ['c', 'n', 'f'] :: terms :: declared :: rest ∧
        Numeral.unsigned? terms = some count ∧
        b = { line := number, termCount := count.toNat, declared } := by
  constructor
  · intro h
    unfold ofHeader at h
    split at h
    case h_1 terms declared rest hwords =>
      split at h
      case h_1 count hcount =>
        cases h
        exact ⟨terms, declared, count, rest, hwords, hcount, rfl⟩
      case h_2 => cases h
    case h_2 => cases h
  · rintro ⟨terms, declared, count, rest, hwords, hcount, rfl⟩
    simp only [ofHeader, hwords, hcount]

theorem readWeights_eq_ok_iff {fields : List Char} :
    b.readWeights fields = .ok b' ↔ ∃ weights,
      List.Forall₂ (fun token w => Numeral.unsigned? token = some w) (words fields) weights ∧
        weights.length = b.termCount ∧ b' = { b with weights? := some weights } := by
  simp only [readWeights, andThen_eq_ok_iff, mapM_eq_ok_iff]
  constructor
  · rintro ⟨weights, hweights, h⟩
    split at h
    case isTrue hlength =>
      cases h
      refine ⟨weights, hweights.imp ?_, hlength, rfl⟩
      intro token w htoken
      split at htoken
      case h_1 weight hweight =>
        cases htoken
        exact hweight
      case h_2 => cases htoken
    case isFalse => cases h
  · rintro ⟨weights, hweights, hlength, rfl⟩
    refine ⟨weights, hweights.imp ?_, if_pos hlength⟩
    intro token w htoken
    simp only [htoken]

theorem readLiteral_eq_ok_iff {value : Int} {l : Literal} :
    b.readLiteral value = .ok l ↔
      value ≠ 0 ∧ value.natAbs ≤ b.termCount ∧ l = ⟨value.natAbs - 1, value < 0⟩ := by
  unfold readLiteral
  constructor
  · intro h
    split at h
    case isTrue => cases h
    case isFalse hrange =>
      cases h
      exact ⟨by tauto, by omega, rfl⟩
  · rintro ⟨hzero, hrange, rfl⟩
    exact if_neg (by omega)

theorem readClause_eq_ok_iff {line : List Char} :
    b.readClause line = .ok b' ↔ ∃ values clause,
      List.Forall₂ (fun token value => Numeral.signed? token = some value) (words line)
          (values ++ [0]) ∧
        List.Forall₂ (fun value l => b.readLiteral value = .ok l) values clause ∧
        b' = { b with clauses := b.clauses.push clause } := by
  simp only [readClause, andThen_eq_ok_iff, mapM_eq_ok_iff]
  constructor
  · rintro ⟨values, hvalues, h⟩
    split at h
    case isTrue hlast =>
      obtain ⟨clause, hclause, hb⟩ := andThen_eq_ok_iff.mp h
      cases hb
      have hsplit : values.dropLast ++ [0] = values := List.dropLast_append_getLast? 0 hlast
      refine ⟨values.dropLast, clause, ?_, mapM_eq_ok_iff.mp hclause, rfl⟩
      rw [hsplit]
      apply hvalues.imp
      intro token value htoken
      split at htoken
      case h_1 v hv =>
        cases htoken
        exact hv
      case h_2 => cases htoken
    case isFalse => cases h
  · rintro ⟨values, clause, hvalues, hclause, rfl⟩
    refine ⟨values ++ [0], hvalues.imp ?_, ?_⟩
    · intro token value htoken
      simp only [htoken]
    · rw [if_pos (by simp), List.dropLast_concat, andThen_eq_ok_iff]
      exact ⟨clause, mapM_eq_ok_iff.mpr hclause, rfl⟩

/-- The number of terms is a word, weights are given for all terms or for none, and all
literals name terms. -/
structure WellFormed (b : Block) : Prop where
  lt_size : b.termCount < UInt64.size
  length_weights : b.weights.length = b.termCount
  inRange : ∀ c ∈ b.clauses, ∀ l ∈ c, l.term < b.termCount

theorem WellFormed.ofHeader {number : Nat} {line : List Char} (h : ofHeader number line = .ok b) :
    b.WellFormed := by
  obtain ⟨-, -, count, -, -, -, rfl⟩ := ofHeader_eq_ok_iff.mp h
  exact ⟨count.toNat_lt_size, by simp [weights], by simp⟩

theorem WellFormed.readWeights {fields : List Char} (hb : b.WellFormed)
    (h : b.readWeights fields = .ok b') : b'.WellFormed := by
  obtain ⟨weights, -, hlength, rfl⟩ := readWeights_eq_ok_iff.mp h
  exact ⟨hb.lt_size, hlength, hb.inRange⟩

theorem WellFormed.readClause {line : List Char} (hb : b.WellFormed)
    (h : b.readClause line = .ok b') : b'.WellFormed := by
  obtain ⟨values, clause, -, hclause, rfl⟩ := readClause_eq_ok_iff.mp h
  refine ⟨hb.lt_size, hb.length_weights, ?_⟩
  intro c hc l hl
  rcases Array.mem_push.mp hc with hc | rfl
  · exact hb.inRange c hc l hl
  · obtain ⟨value, -, hvalue⟩ := exists_of_mem_mapM (mapM_eq_ok_iff.mpr hclause) hl
    obtain ⟨hzero, hrange, rfl⟩ := readLiteral_eq_ok_iff.mp hvalue
    change value.natAbs - 1 < b.termCount
    omega

end Block

/-- Terms are named by their numbers, literals name terms, and the number of terms and the
total of all weights are words. -/
structure Instance.WellFormed (i : Instance) : Prop where
  lt_size : i.terms.size < UInt64.size
  named : ∀ k (h : k < i.terms.size), i.terms[k].name = (k + 1).repr
  inRange : ∀ c ∈ i.clauses, ∀ l ∈ c, l.term < i.terms.size
  fits : i.totalWeight?.isSome

theorem Block.WellFormed.toInstance {b : Block} (hb : b.WellFormed)
    (hfits : (Totals.sum? b.weights).isSome) (id : Nat) : (b.toInstance id).WellFormed where
  lt_size := by simpa [Block.toInstance, hb.length_weights] using hb.lt_size
  named := by simp [Block.toInstance]
  inRange := by
    intro c hc l hl
    have hterm := hb.inRange c (by simpa [Block.toInstance] using hc) l hl
    simpa [Block.toInstance, hb.length_weights] using hterm
  fits := by
    have hweights : (b.toInstance id).terms.toList.map Term.weight = b.weights := by
      apply List.ext_getElem <;> simp [Block.toInstance]
    rwa [Instance.totalWeight?, hweights]

namespace Reading

variable {r r' : Reading}

theorem close_eq_ok_iff : r.close = .ok r' ↔ r.current? = none ∧ r' = r ∨
    ∃ b, r.current? = some b ∧ (Totals.sum? b.weights).isSome ∧
      r' = { closed := r.closed.push b } := by
  cases hb : r.current? with
  | none => simp [close, hb, eq_comm (a := r')]
  | some b =>
    cases hsum : Totals.sum? b.weights with
    | none => simp [close, hb, hsum]
    | some total => simp [close, hb, hsum, eq_comm (a := r')]

/-- What a line can do: it closes the current block, or opens another one after that, or
is read into it. -/
theorem feed_cases {line : List Char × Nat} (h : r.feed line = .ok r') :
    r.close = .ok r' ∨
      (∃ r₁ b, r.close = .ok r₁ ∧ Block.ofHeader line.2 line.1 = .ok b ∧
        r' = { r₁ with current? := some b }) ∨
      ∃ b b', r.current? = some b ∧ r' = { r with current? := some b' } ∧
        ((∃ fields, line.1 = 'v' :: fields ∧ b.readWeights fields = .ok b') ∨
          b.readClause line.1 = .ok b') := by
  simp only [feed] at h
  split at h
  case h_1 => exact Or.inl h
  case h_2 => exact Or.inl h
  case h_3 =>
    obtain ⟨r₁, hclose, h⟩ := andThen_eq_ok_iff.mp h
    obtain ⟨b, hb, h⟩ := andThen_eq_ok_iff.mp h
    cases h
    exact Or.inr (Or.inl ⟨r₁, b, hclose, mapError_eq_ok_iff.mp hb, rfl⟩)
  case h_4 =>
    split at h
    case h_1 => cases h
    case h_2 b hb =>
      obtain ⟨b', hread, h⟩ := andThen_eq_ok_iff.mp h
      cases h
      refine Or.inr (Or.inr ⟨b, b', hb, rfl, ?_⟩)
      have hread := mapError_eq_ok_iff.mp hread
      split at hread
      case h_1 fields hline => exact Or.inl ⟨fields, hline, hread⟩
      case h_2 => exact Or.inr hread

/-- All blocks are well formed, and the total weights of the closed ones are words. -/
structure WellFormed (r : Reading) : Prop where
  closed : ∀ b ∈ r.closed, b.WellFormed ∧ (Totals.sum? b.weights).isSome
  current : ∀ b, r.current? = some b → b.WellFormed

namespace WellFormed

theorem close (hr : r.WellFormed) (h : r.close = .ok r') : r'.WellFormed := by
  rcases close_eq_ok_iff.mp h with ⟨-, rfl⟩ | ⟨b, hb, hfits, rfl⟩
  · exact hr
  · refine ⟨?_, by simp⟩
    intro b' hb'
    rcases Array.mem_push.mp hb' with hb' | rfl
    · exact hr.closed b' hb'
    · exact ⟨hr.current b' hb, hfits⟩

theorem withCurrent (hr : r.WellFormed) {b : Block} (hb : b.WellFormed) :
    WellFormed { r with current? := some b } := by
  refine ⟨hr.closed, ?_⟩
  intro b' hb'
  cases hb'
  exact hb

theorem feed (hr : r.WellFormed) {line : List Char × Nat} (h : r.feed line = .ok r') :
    r'.WellFormed := by
  rcases feed_cases h with hclose | ⟨r₁, b, hclose, hb, rfl⟩ |
    ⟨b, b', hb, rfl, ⟨fields, -, hread⟩ | hread⟩
  · exact hr.close hclose
  · exact (hr.close hclose).withCurrent (.ofHeader hb)
  · exact hr.withCurrent ((hr.current b hb).readWeights hread)
  · exact hr.withCurrent ((hr.current b hb).readClause hread)

theorem foldlM {lines : List (List Char × Nat)} (hr : r.WellFormed)
    (h : lines.foldlM Reading.feed r = .ok r') : r'.WellFormed := by
  induction lines generalizing r with
  | nil =>
    cases h
    exact hr
  | cons line lines ih =>
    rw [List.foldlM_cons] at h
    obtain ⟨r₁, hfeed, h⟩ := andThen_eq_ok_iff.mp h
    exact ih (hr.feed hfeed) h

end WellFormed
end Reading

theorem parse_eq_ok_iff {text : String} {instances : List Instance} :
    parse text = .ok instances ↔ ∃ r₁ r₂,
      (contentLines text.toList).foldlM Reading.feed {} = .ok r₁ ∧ r₁.close = .ok r₂ ∧
        instances = r₂.instances := by
  simp only [parse, andThen_eq_ok_iff, Except.ok.injEq]
  constructor
  · rintro ⟨r₁, hlines, r₂, hclose, rfl⟩
    exact ⟨r₁, r₂, hlines, hclose, rfl⟩
  · rintro ⟨r₁, r₂, hlines, hclose, rfl⟩
    exact ⟨r₁, hlines, r₂, hclose, rfl⟩

theorem wellFormed_of_parse {text : String} {instances : List Instance}
    (h : parse text = .ok instances) {i : Instance} (hi : i ∈ instances) : i.WellFormed := by
  obtain ⟨r₁, r₂, hlines, hclose, rfl⟩ := parse_eq_ok_iff.mp h
  have hr : r₂.WellFormed := (Reading.WellFormed.foldlM ⟨by simp, by simp⟩ hlines).close hclose
  obtain ⟨k, hk, rfl⟩ := List.mem_mapIdx.mp hi
  obtain ⟨hb, hfits⟩ := hr.closed _ (Array.mem_def.mpr (List.getElem_mem hk))
  exact hb.toInstance hfits _

end Annealing.Satisfiability
