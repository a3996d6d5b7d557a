import Annealing.Proofs.Text.Lines
import Annealing.Text.Located

/-!
# Texts put one after the other

If a newline stands between two texts, the fields of the whole are those of
the first text and then those of the second. Up to blanks at their ends, the
fields of a text are its lines and perhaps an empty one at the end. So a
reader that skips blank lines reads the lines of the first text and then those
of the second, whose numbers have grown. The defects it finds there move by as
many lines.
-/
namespace Annealing

namespace Text

theorem fields_append_newline (a b : String) :
    fields '\n' (a ++ "\n" ++ b).toList = fields '\n' a.toList ++ fields '\n' b.toList := by
  rw [← fields_append_cons, String.toList_append, String.toList_append, List.append_assoc]
  rfl

theorem fields_append_blank_line (a b : String) : fields '\n' (a ++ "\n\n" ++ b).toList =
    fields '\n' a.toList ++ [] :: fields '\n' b.toList := by
  have happend : a ++ "\n\n" ++ b = a ++ "\n" ++ ("" ++ "\n" ++ b) := by
    rw [← String.toList_inj]
    simp
  rw [happend, fields_append_newline, fields_append_newline]
  rfl

theorem fields_cons {separator c : Char} (hc : c ≠ separator) (cs : List Char) :
    ∃ f fs, fields separator (c :: cs) = (c :: f) :: fs := by
  obtain ⟨f, fs, hfields⟩ := List.exists_cons_of_ne_nil (List.splitOn_ne_nil separator cs)
  refine ⟨f, fs, ?_⟩
  rw [fields_eq_splitOn, List.splitOn_cons_eq_if_modifyHead, hfields, if_neg (by simpa using hc)]
  rfl

/-- Without the blanks at their ends, the lines of a text are its fields, but for an empty
field at the end. -/
theorem map_trim_lines (cs : List Char) : ∃ rest, (rest = [] ∨ rest = [[]]) ∧
    (fields '\n' cs).map trim = (lines cs).map trim ++ rest := by
  obtain ⟨rest, hrest, hall, -⟩ := forall₂_lines_fields cs
  have htrim : (lines cs ++ rest).map trim = (fields '\n' cs).map trim := by
    rw [← List.forall₂_eq_eq_eq, List.forall₂_map_left_iff, List.forall₂_map_right_iff]
    exact hall.imp fun _ _ h => h.trim_eq
  refine ⟨rest, hrest, ?_⟩
  rw [← htrim, List.map_append]
  obtain rfl | rfl := hrest <;> rfl

/-- For a reader that takes no notice of a blank line at the end, fields are as good as
lines. -/
theorem read_fields_eq {α : Type} {read : List (List Char) → α}
    (h : ∀ ls, read (ls ++ [[]]) = read ls) (cs : List Char) :
    read ((fields '\n' cs).map trim) = read ((lines cs).map trim) := by
  obtain ⟨rest, hrest, hlines⟩ := map_trim_lines cs
  rw [hlines]
  obtain rfl | rfl := hrest
  · rw [List.append_nil]
  · exact h _

namespace Located

variable {δ : Type}

/-- The same defect, `n` lines further down. -/
def shift (n : Nat) (e : Located δ) : Located δ := { e with line := e.line + n }

end Located
end Text

/-- Two steps agree up to what becomes of the result if the second ones do. -/
theorem bind_eq_map_bind {α β β' ε : Type} {x : Except ε α} {k : α → Except ε β}
    {k' : α → Except ε β'} {f : β → β'} (h : ∀ a, k' a = (k a).map f) :
    x.bind k' = (x.bind k).map f := by
  cases x with
  | error e => rfl
  | ok a => exact h a

/-- Two steps agree with another two, up to what becomes of their results and errors, if
the second steps do on every result of the first. -/
theorem bind_map_mapError {α α' β β' ε ε' : Type} {x : Except ε α} {f : α → α'} {g : ε → ε'}
    {k : α → Except ε β} {k' : α' → Except ε' β'} {f' : β → β'}
    (h : ∀ a, k' (f a) = ((k a).map f').mapError g) :
    ((x.map f).mapError g).bind k' = ((x.bind k).map f').mapError g := by
  cases x with
  | error e => rfl
  | ok a => exact h a

end Annealing
