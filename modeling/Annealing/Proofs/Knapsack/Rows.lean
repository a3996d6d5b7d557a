import Annealing.Proofs.Solving.Spacing
import Annealing.Proofs.Text.Joined

/-!
# Knapsack texts put one after the other

Every line is read for itself, and all that comes from its place is the number
in its defect. So two texts with a newline between them are read one after the
other.
-/
namespace Annealing.Knapsack

open Text

/-- Reads lines from number `k` on; blank ones are skipped. -/
def readFrom (k : Nat) : List (List Char) → Except (Located Defect) (List Instance)
  | [] => .ok []
  | l :: ls =>
    if l.isEmpty then readFrom (k + 1) ls
    else ((parseLine l).mapError (Located.mk k)).bind fun i => (readFrom (k + 1) ls).map (i :: ·)

theorem readFrom_blank (k : Nat) (ls : List (List Char)) :
    readFrom k ([] :: ls) = readFrom (k + 1) ls := rfl

theorem readFrom_line {l : List Char} (h : ¬ l.isEmpty = true) (k : Nat) (ls : List (List Char)) :
    readFrom k (l :: ls) =
      ((parseLine l).mapError (Located.mk k)).bind fun i => (readFrom (k + 1) ls).map (i :: ·) :=
  if_neg h

/-- The lines may be read without the blanks at their ends. -/
theorem readFrom_eq_mapM (k : Nat) (ls : List (List Char)) : readFrom k (ls.map trim) =
    ((ls.zipIdx k).filter fun line => !(trim line.1).isEmpty).mapM fun line =>
      (parseLine line.1).mapError (Located.mk line.2) := by
  induction ls generalizing k with
  | nil => rfl
  | cons l ls ih =>
    rw [List.map_cons, List.zipIdx_cons]
    by_cases h : (trim l).isEmpty = true
    · rw [List.filter_cons_of_neg (by simpa using h), ← ih, List.isEmpty_iff.mp h]
      rfl
    · rw [List.filter_cons_of_pos (by simpa using h), mapM_cons_eq, ← ih, readFrom_line h,
        parseLine_congr (words_trim l)]
      rfl

theorem readFrom_append (k : Nat) (ls ms : List (List Char)) : readFrom k (ls ++ ms) =
    (readFrom k ls).bind fun is => (readFrom (k + ls.length) ms).map (is ++ ·) := by
  induction ls generalizing k with
  | nil =>
    change readFrom k ms = (readFrom k ms).map id
    cases readFrom k ms <;> rfl
  | cons l ls ih =>
    have hnumber : k + 1 + ls.length = k + (l :: ls).length := by
      rw [List.length_cons]
      omega
    rw [List.cons_append]
    by_cases h : l.isEmpty = true
    · rw [List.isEmpty_iff.mp h] at hnumber ⊢
      rw [readFrom_blank, readFrom_blank, ih, hnumber]
    · rw [readFrom_line h, readFrom_line h, ih, hnumber]
      cases parseLine l with
      | error defect => rfl
      | ok i =>
        cases readFrom (k + 1) ls with
        | error e => rfl
        | ok is =>
          simp only [Except.mapError, Except.bind, Except.map]
          cases readFrom (k + (l :: ls).length) ms <;> rfl

theorem readFrom_blank_end (k : Nat) (ls : List (List Char)) :
    readFrom k (ls ++ [[]]) = readFrom k ls := by
  rw [readFrom_append]
  cases readFrom k ls with
  | error e => rfl
  | ok is => exact congrArg Except.ok (List.append_nil is)

/-- What is read does not depend on the numbers of the lines, but its defects do. -/
theorem readFrom_shift (k n : Nat) (ls : List (List Char)) :
    readFrom (k + n) ls = (readFrom k ls).mapError (Located.shift n) := by
  induction ls generalizing k with
  | nil => rfl
  | cons l ls ih =>
    have hrest : readFrom (k + n + 1) ls = (readFrom (k + 1) ls).mapError (Located.shift n) := by
      rw [Nat.add_right_comm]
      exact ih (k + 1)
    by_cases h : l.isEmpty = true
    · rw [List.isEmpty_iff.mp h, readFrom_blank, readFrom_blank, hrest]
    · rw [readFrom_line h, readFrom_line h, hrest]
      cases parseLine l with
      | error defect => rfl
      | ok i =>
        simp only [Except.mapError, Except.bind]
        cases readFrom (k + 1) ls <;> rfl

theorem parse_eq_readFrom (text : String) :
    parse text = readFrom 1 ((fields '\n' text.toList).map trim) := by
  rw [read_fields_eq (readFrom_blank_end 1), readFrom_eq_mapM]
  rfl

/-- The text behind a newline is read as if it stood alone, and its defects are further
down. -/
theorem parse_append_newline (a b : String) : parse (a ++ "\n" ++ b) = (parse a).bind fun is =>
    ((parse b).mapError (Located.shift (a.toList.count '\n' + 1))).map (is ++ ·) := by
  have hnumber : 1 + ((fields '\n' a.toList).map trim).length =
      1 + (a.toList.count '\n' + 1) := by
    rw [List.length_map, length_fields]
  simp only [parse_eq_readFrom, fields_append_newline, List.map_append, readFrom_append, hnumber,
    readFrom_shift]

end Annealing.Knapsack
