import Annealing.Text.Lines

/-!
# Fields of joined texts

Joining texts with a separator and cutting the result into fields gives the
texts back, as long as none of them has the separator in it. Numbers are
written in digits, so they never have one.
-/
namespace Annealing.Text

/-- The field of a bit. -/
def bitField (bit : Bool) : String := if bit then "1" else "0"

theorem fields_eq_splitOn (c : Char) (cs : List Char) : fields c cs = cs.splitOn c := by
  induction cs with
  | nil => rfl
  | cons x cs ih =>
    obtain ⟨f, fs, hf⟩ := List.exists_cons_of_ne_nil (List.splitOn_ne_nil c cs)
    rw [hf] at ih
    rw [List.splitOn_cons_eq_if_modifyHead, hf]
    by_cases hx : x = c
    · simpa [fields, hx] using ih
    · simp only [fields] at ih
      simp [fields, hx, ih]

theorem fields_append_cons (c : Char) (cs rest : List Char) :
    fields c (cs ++ c :: rest) = fields c cs ++ fields c rest := by
  simp only [fields_eq_splitOn]
  exact List.splitOnP_append_cons cs rest (beq_self_eq_true c)

theorem length_fields (c : Char) (cs : List Char) : (fields c cs).length = cs.count c + 1 := by
  rw [fields_eq_splitOn]
  induction cs with
  | nil => rfl
  | cons x cs ih =>
    rw [List.splitOn_cons_eq_if_modifyHead, List.count_cons]
    split
    · rw [List.length_cons, ih]
    · rw [List.length_modifyHead, ih]

/-- Texts that are joined by a separator are the fields of the result. -/
theorem fields_intercalate {separator : String} {c : Char} (hc : separator.toList = [c])
    {texts : List String} (hne : texts ≠ []) (hfree : ∀ text ∈ texts, c ∉ text.toList) :
    fields c (String.intercalate separator texts).toList = texts.map String.toList := by
  rw [fields_eq_splitOn, String.toList_intercalate, hc]
  apply List.splitOn_intercalate
  · intro l hl
    obtain ⟨text, htext, rfl⟩ := List.mem_map.mp hl
    exact hfree text htext
  · simpa using hne

theorem not_mem_repr {c : Char} (hc : c.isDigit = false) (n : Nat) : c ∉ n.repr.toList := by
  intro h
  rw [Nat.toList_repr] at h
  have hdigit := Nat.isDigit_of_mem_toDigits (by decide) (by decide) h
  rw [hc] at hdigit
  cases hdigit

end Annealing.Text
