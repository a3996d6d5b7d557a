import Annealing.Proofs.Satisfiability.Writing
import Annealing.Proofs.Solving.Spacing
import Annealing.Proofs.Text.Joined

/-!
# Texts of blocks put one after the other

A blank line closes the current block. What is read after it is read as if the
text began there: the lines have other numbers and there are closed blocks
already, but no line looks at either. So two texts with a blank line between
them are read one after the other, unless the first has an end mark. What
stands behind an end mark is not read at all.
-/
namespace Annealing.Satisfiability

open Text

/-! ## Reading line by line -/

namespace Reading

variable {r r' : Reading}

/-- Reads lines from number `k` on, up to an end mark, and closes the last block. -/
def readFrom (r : Reading) (k : Nat) : List (List Char) → Except (Located Defect) Reading
  | [] => r.close
  | l :: ls =>
    if l.head? = some '%' then r.close
    else (r.feed (l, k)).bind fun r => r.readFrom (k + 1) ls

theorem readFrom_mark {l : List Char} (h : l.head? = some '%') (r : Reading) (k : Nat)
    (ls : List (List Char)) : r.readFrom k (l :: ls) = r.close := if_pos h

theorem readFrom_line {l : List Char} (h : l.head? ≠ some '%') (r : Reading) (k : Nat)
    (ls : List (List Char)) :
    r.readFrom k (l :: ls) = (r.feed (l, k)).bind fun r => r.readFrom (k + 1) ls := if_neg h

theorem readFrom_blank (r : Reading) (k : Nat) (ls : List (List Char)) :
    r.readFrom k ([] :: ls) = r.close.bind fun r => r.readFrom (k + 1) ls := rfl

theorem close_bind_close (r : Reading) : r.close.bind close = r.close := by
  cases h : r.close with
  | error e => rfl
  | ok r' => exact close_close h

theorem readFrom_eq_foldlM (r : Reading) (k : Nat) (ls : List (List Char)) :
    r.readFrom k ls =
      (((ls.zipIdx k).takeWhile fun line => line.1.head? != some '%').foldlM feed r).bind
        close := by
  induction ls generalizing r k with
  | nil => rfl
  | cons l ls ih =>
    rw [List.zipIdx_cons, List.takeWhile_cons]
    by_cases h : l.head? = some '%'
    · rw [readFrom_mark h, h, bne_self_eq_false]
      rfl
    · rw [readFrom_line h, if_pos (bne_iff_ne.mpr h), List.foldlM_cons]
      cases r.feed (l, k) with
      | error e => rfl
      | ok r => exact ih r (k + 1)

/-- A blank line at the end closes what is closed there anyway. -/
theorem readFrom_blank_end (r : Reading) (k : Nat) (ls : List (List Char)) :
    r.readFrom k (ls ++ [[]]) = r.readFrom k ls := by
  induction ls generalizing r k with
  | nil => exact close_bind_close r
  | cons l ls ih =>
    rw [List.cons_append]
    by_cases h : l.head? = some '%'
    · rw [readFrom_mark h, readFrom_mark h]
    · simp only [readFrom_line h, ih]

/-- Lines behind a blank line are read after the lines before it. -/
theorem readFrom_append_blank (r : Reading) (k : Nat) {ls : List (List Char)}
    (h : ∀ l ∈ ls, l.head? ≠ some '%') (ms : List (List Char)) :
    r.readFrom k (ls ++ [] :: ms) =
      (r.readFrom k ls).bind fun r => r.readFrom (k + ls.length + 1) ms := by
  induction ls generalizing r k with
  | nil => exact readFrom_blank r k ms
  | cons l ls ih =>
    obtain ⟨hl, hls⟩ := List.forall_mem_cons.mp h
    have hnumber : k + 1 + ls.length + 1 = k + (l :: ls).length + 1 := by
      rw [List.length_cons]
      omega
    rw [List.cons_append, readFrom_line hl, readFrom_line hl]
    cases r.feed (l, k) with
    | error e => rfl
    | ok r =>
      rw [← hnumber]
      exact ih r (k + 1) hls

/-- Lines behind an end mark are not read. -/
theorem readFrom_append_mark (r : Reading) (k : Nat) (ls : List (List Char)) {m : List Char}
    (hm : m.head? = some '%') (ms : List (List Char)) :
    r.readFrom k (ls ++ m :: ms) = r.readFrom k ls := by
  induction ls generalizing r k with
  | nil => exact readFrom_mark hm r k ms
  | cons l ls ih =>
    rw [List.cons_append]
    by_cases h : l.head? = some '%'
    · rw [readFrom_mark h, readFrom_mark h]
    · simp only [readFrom_line h, ih]

theorem current?_of_close (h : r.close = .ok r') : r'.current? = none := by
  obtain ⟨hnone, rfl⟩ | ⟨b, -, -, rfl⟩ := close_eq_ok_iff.mp h
  · exact hnone
  · rfl

/-- There is no current block at the end. -/
theorem current?_of_readFrom {k : Nat} {ls : List (List Char)} (h : r.readFrom k ls = .ok r') :
    r'.current? = none := by
  induction ls generalizing r k with
  | nil => exact current?_of_close h
  | cons l ls ih =>
    by_cases hl : l.head? = some '%'
    · exact current?_of_close (readFrom_mark hl r k ls ▸ h)
    · rw [readFrom_line hl] at h
      obtain ⟨r₁, -, hr₁⟩ := bind_eq_ok_iff.mp h
      exact ih hr₁

end Reading

theorem parse_eq_readFrom (text : String) : parse text =
    (Reading.readFrom {} 1 ((fields '\n' text.toList).map trim)).map Reading.instances := by
  rw [read_fields_eq (Reading.readFrom_blank_end {} 1), Reading.readFrom_eq_foldlM, parse,
    contentLines]
  cases List.foldlM Reading.feed {} _ with
  | error e => rfl
  | ok r =>
    cases h : r.close with
    | error e => simp only [bind, Except.bind, h, Except.map]
    | ok r' => simp only [bind, Except.bind, h, Except.map]

/-! ## Reading after other blocks -/

namespace Block

/-- The same block, opened `n` lines further down. -/
def later (n : Nat) (b : Block) : Block := { b with line := b.line + n }

variable (b : Block) (n number : Nat) (line : List Char)

@[simp] theorem weights_later : (b.later n).weights = b.weights := rfl

@[simp] theorem toInstance_later (id : Nat) : (b.later n).toInstance id = b.toInstance id := rfl

theorem ofHeader_later : ofHeader (number + n) line = (ofHeader number line).map (later n) := by
  unfold ofHeader
  split
  · split <;> rfl
  · rfl

theorem readWeights_later :
    (b.later n).readWeights line = (b.readWeights line).map (later n) := by
  apply bind_eq_map_bind
  intro weights
  by_cases h : weights.length = b.termCount
  · simp [later, h, Except.map]
  · simp [later, h, Except.map]

theorem readClause_later : (b.later n).readClause line = (b.readClause line).map (later n) := by
  apply bind_eq_map_bind
  intro values
  split
  · -- Literals are checked against the number of terms, which is the same.
    apply bind_eq_map_bind
    intro clause
    rfl
  · rfl

end Block

namespace Reading

/-- What is read when the given blocks were closed before, and `n` lines further down. -/
def after (before : Array Block) (n : Nat) (r : Reading) : Reading where
  closed := before ++ r.closed.map (Block.later n)
  current? := r.current?.map (Block.later n)

variable (before : Array Block) (n : Nat) (r : Reading)

theorem close_after :
    (r.after before n).close = (r.close.map (after before n)).mapError (Located.shift n) := by
  obtain ⟨closed, current?⟩ := r
  cases current? with
  | none => rfl
  | some b =>
    cases hsum : Totals.sum? b.weights with
    | none =>
      simp only [close, after, Option.map_some, Block.weights_later, hsum, Option.isNone_none,
        if_true]
      rfl
    | some total =>
      simp only [close, after, Option.map_some, Block.weights_later, hsum, Option.isNone_some,
        Bool.false_eq_true, if_false, Array.push_append, Array.map_push, Except.map,
        Except.mapError, Option.map_none]

/-- A line leaves closed blocks as they are, and its number gets into nothing but a block that
it opens and its defect. -/
theorem feed_after (l : List Char) (k : Nat) : (r.after before n).feed (l, k + n) =
    ((r.feed (l, k)).map (after before n)).mapError (Located.shift n) := by
  cases l with
  | nil => exact close_after before n r
  | cons c cs =>
    rw [feed_cons, feed_cons]
    by_cases hc : c = 'c'
    · rw [if_pos hc, if_pos hc]
      exact close_after before n r
    rw [if_neg hc, if_neg hc]
    by_cases hp : c = 'p'
    · rw [if_pos hp, if_pos hp, close_after, Block.ofHeader_later]
      apply bind_map_mapError
      intro r
      cases Block.ofHeader k (c :: cs) with
      | error e => rfl
      | ok b => rfl
    rw [if_neg hp, if_neg hp]
    obtain ⟨closed, current?⟩ := r
    cases current? with
    | none => rfl
    | some b =>
      have hread : (if c = 'v' then (b.later n).readWeights cs
          else (b.later n).readClause (c :: cs)) =
          (if c = 'v' then b.readWeights cs else b.readClause (c :: cs)).map (Block.later n) := by
        rw [Block.readWeights_later, Block.readClause_later]
        split <;> rfl
      simp only [after, Option.map_some, hread]
      cases (if c = 'v' then b.readWeights cs else b.readClause (c :: cs)) with
      | error e => rfl
      | ok b => rfl

theorem readFrom_after (k : Nat) (ls : List (List Char)) : (r.after before n).readFrom (k + n) ls =
    ((r.readFrom k ls).map (after before n)).mapError (Located.shift n) := by
  induction ls generalizing r k with
  | nil => exact close_after before n r
  | cons l ls ih =>
    by_cases h : l.head? = some '%'
    · rw [readFrom_mark h, readFrom_mark h]
      exact close_after before n r
    · rw [readFrom_line h, readFrom_line h, feed_after]
      apply bind_map_mapError
      intro r
      rw [Nat.add_right_comm]
      exact ih r (k + 1)

/-- Reading goes on after closed blocks as it would begin. -/
theorem readFrom_of_current? {r : Reading} (h : r.current? = none) (k n : Nat)
    (ls : List (List Char)) : r.readFrom (k + n) ls =
      ((readFrom {} k ls).map (after r.closed n)).mapError (Located.shift n) := by
  have hr : r = after r.closed n {} := by
    obtain ⟨closed, current?⟩ := r
    obtain rfl : current? = none := h
    simp [after]
  rw [← readFrom_after, ← hr]

end Reading

/-- The same instance with an id that has grown by the given number. -/
def Instance.numberedAfter (count : Nat) (i : Instance) : Instance :=
  { i with id := i.id + .ofNat count }

theorem Block.toInstance_numberedAfter (b : Block) (id count : Nat) :
    (b.toInstance id).numberedAfter count = b.toInstance (id + count) := by
  simp [toInstance, Instance.numberedAfter, UInt64.ofNat_add]

theorem Reading.instances_after (before : Array Block) (n : Nat) (r : Reading) :
    (r.after before n).instances = instances { closed := before } ++
      r.instances.map (Instance.numberedAfter before.size) := by
  simp only [instances, after, Array.toList_append, Array.toList_map, List.mapIdx_append]
  congr 1
  apply List.ext_getElem
  · simp
  · intro i h₁ h₂
    simp [Block.toInstance_numberedAfter, Nat.add_right_comm]

theorem Reading.length_instances (r : Reading) : r.instances.length = r.closed.size := by
  simp [instances]

/-! ## Joined texts -/

/-- The text after a blank line is read as if it stood alone, and then its instances are
numbered after those of the text before it. Its defects are further down. -/
theorem parse_append_blank_line {a : String} (h : ∀ l ∈ lines a.toList, (trim l).head? ≠ some '%')
    (b : String) : parse (a ++ "\n\n" ++ b) = (parse a).bind fun is =>
      ((parse b).mapError (Located.shift (a.toList.count '\n' + 2))).map fun js =>
        is ++ js.map (Instance.numberedAfter is.length) := by
  have hmarks : ∀ l ∈ (fields '\n' a.toList).map trim, l.head? ≠ some '%' := by
    obtain ⟨rest, hrest, hlines⟩ := map_trim_lines a.toList
    rw [hlines, List.forall_mem_append, List.forall_mem_map]
    refine ⟨h, ?_⟩
    obtain rfl | rfl := hrest <;> simp
  have hnumber : 1 + ((fields '\n' a.toList).map trim).length + 1 =
      1 + (a.toList.count '\n' + 2) := by
    rw [List.length_map, length_fields]
    omega
  have hblank : trim [] = [] := rfl
  rw [parse_eq_readFrom, fields_append_blank_line, List.map_append, List.map_cons, hblank,
    Reading.readFrom_append_blank _ _ hmarks, hnumber, parse_eq_readFrom a, parse_eq_readFrom b]
  cases hread : Reading.readFrom {} 1 ((fields '\n' a.toList).map trim) with
  | error e => rfl
  | ok r =>
    simp only [Except.bind, Except.map,
      Reading.readFrom_of_current? (Reading.current?_of_readFrom hread)]
    cases Reading.readFrom {} 1 ((fields '\n' b.toList).map trim) with
    | error e => rfl
    | ok r' =>
      have hclosed : Reading.instances { closed := r.closed } = r.instances := rfl
      simp only [Except.mapError, Reading.instances_after, hclosed, Reading.length_instances]

/-- What stands behind an end mark does not count. -/
theorem parse_append_mark (a u : String) : parse (a ++ "\n%" ++ u) = parse a := by
  have hline : '%' ≠ '\n' := by decide
  obtain ⟨f, fs, hmark⟩ := fields_cons hline u.toList
  have hfields : (fields '\n' (a ++ "\n%" ++ u).toList).map trim =
      (fields '\n' a.toList).map trim ++ trim ('%' :: f) :: fs.map trim := by
    have happend : a ++ "\n%" ++ u = a ++ "\n" ++ ("%" ++ u) := by
      rw [← String.toList_inj]
      simp
    have htoList : ("%" ++ u).toList = '%' :: u.toList := by simp
    rw [happend, fields_append_newline, htoList, hmark, List.map_append, List.map_cons]
  have hhead : (trim ('%' :: f)).head? = some '%' := by
    obtain ⟨w, ws, hwords⟩ := exists_words_cons (show isBlank '%' = false by decide) f
    rw [head?_trim, hwords]
    rfl
  rw [parse_eq_readFrom, hfields, Reading.readFrom_append_mark _ _ _ hhead, ← parse_eq_readFrom]

/-- If no line of a text is an end mark, a blank line and another text can be put behind it. A
defect of the first text is that of the whole. If there is none, the instances of the second
text follow those of the first and their ids go on from there, or the defect of the second text
is that of the whole, as many lines further down as stand before it. Behind an end mark any
text can be put. -/
theorem parse_separated_blocks :
    (∀ a b, (∀ l ∈ lines a.toList, (trim l).head? ≠ some '%') →
      (∀ e, parse a = .error e → parse (a ++ "\n\n" ++ b) = .error e) ∧
      (∀ is js, parse a = .ok is → parse b = .ok js → parse (a ++ "\n\n" ++ b) =
        .ok (is ++ js.map fun j => { j with id := j.id + .ofNat is.length })) ∧
      ∀ is e, parse a = .ok is → parse b = .error e → parse (a ++ "\n\n" ++ b) =
        .error { e with line := e.line + (a.toList.count '\n' + 2) }) ∧
    ∀ a u, parse (a ++ "\n%" ++ u) = parse a := by
  refine ⟨?_, parse_append_mark⟩
  intro a b hmarks
  rw [parse_append_blank_line hmarks]
  refine ⟨?_, ?_, ?_⟩
  · intro e ha
    rw [ha]
    rfl
  · intro is js ha hb
    rw [ha, hb]
    rfl
  · intro is e ha hb
    rw [ha, hb]
    rfl

/-- A block without a line behind its clause. -/
def openBlock : String := "p cnf 1 1\n1 0"

/-- A block whose total weight is found to be no word when the text ends. -/
def heavyBlock : String := "c\np cnf 2 0\nv 18446744073709551615 1"

theorem parse_separated_blocks_openBlock :
    parse ("1 0" ++ "\n\n" ++ openBlock) = .error ⟨1, .outsideBlock⟩ ∧
      parse (openBlock ++ "\n\n" ++ openBlock) =
        .ok [⟨1, #[⟨"1", 1⟩], [[⟨0, false⟩]]⟩, ⟨2, #[⟨"1", 1⟩], [[⟨0, false⟩]]⟩] ∧
      parse (openBlock ++ "\n\n" ++ heavyBlock) = .error ⟨5, .weightTooLarge⟩ ∧
      parse (openBlock ++ "\n%" ++ "1 0") = .ok [⟨1, #[⟨"1", 1⟩], [[⟨0, false⟩]]⟩] := by
  obtain ⟨hblank, hmark⟩ := parse_separated_blocks
  have hopen : parse openBlock = .ok [⟨1, #[⟨"1", 1⟩], [[⟨0, false⟩]]⟩] := by rfl
  have hheavy : parse heavyBlock = .error ⟨2, .weightTooLarge⟩ := by rfl
  obtain ⟨-, hok, herror⟩ := hblank openBlock openBlock (by decide)
  obtain ⟨-, -, hlater⟩ := hblank openBlock heavyBlock (by decide)
  refine ⟨(hblank "1 0" openBlock (by decide)).1 _ rfl, hok _ _ hopen hopen,
    hlater _ _ hopen hheavy, ?_⟩
  rw [hmark, hopen]

end Annealing.Satisfiability
