import Annealing.Proofs.Text.Spacing

/-!
# Squeezed texts

A text is squeezed if every run of blanks becomes one space. Squeezed and
trimmed, a text is its words with single spaces between them: the space of a
run stands between two words, or at an end, where it is trimmed away.
-/
namespace Annealing.Text

/-- A text with one space for each run of blanks, in the place of the last one. -/
def squeeze : List Char → List Char
  | [] => []
  | c :: cs =>
    if isBlank c then if cs.head?.any isBlank then squeeze cs else ' ' :: squeeze cs
    else c :: squeeze cs

section
variable {c d : Char} {bs cs w : List Char} {ws : List (List Char)}

theorem joinWords_eq_intercalate (ws : List (List Char)) :
    joinWords ws = List.intercalate [' '] ws := by
  induction ws with
  | nil => rfl
  | cons w ws ih =>
    cases ws with
    | nil => simp [joinWords]
    | cons v ws =>
      rw [List.intercalate_cons_cons, ← ih, List.append_assoc]
      rfl

theorem joinWords_cons_cons (c : Char) (w : List Char) (ws : List (List Char)) :
    joinWords ((c :: w) :: ws) = c :: joinWords (w :: ws) := by
  cases ws <;> rfl

/-- A character in front of another one is in its word if neither is a blank. -/
theorem words_cons_cons (hc : isBlank c = false) (hd : isBlank d = false) (cs : List Char) :
    ∃ w ws, words (d :: cs) = w :: ws ∧ words (c :: d :: cs) = (c :: w) :: ws := by
  rw [words, words, List.foldr_cons, List.foldr_cons, List.foldr_cons]
  generalize cs.foldr consWord (false, []) = inner
  obtain ⟨_ | _, _ | ⟨w, ws⟩⟩ := inner <;> simp [consWord, hc, hd]

/-- A squeezed text has a space in front if it begins with a blank, then its words, and nothing
but blanks after them. -/
theorem exists_squeeze_eq (cs : List Char) : ∃ bs, (∀ b ∈ bs, isBlank b = true) ∧
    squeeze cs = (if cs.head?.any isBlank then [' '] else []) ++ joinWords (words cs) ++ bs := by
  induction cs with
  | nil => exact ⟨[], by simp, rfl⟩
  | cons c cs ih =>
    obtain ⟨bs, hbs, heq⟩ := ih
    by_cases hc : isBlank c = true
    · refine ⟨bs, hbs, ?_⟩
      rw [words_cons_blank hc, squeeze, if_pos hc, heq]
      simp only [List.head?_cons, Option.any_some, hc, if_true]
      split
      · rfl
      · rfl
    · rw [Bool.not_eq_true] at hc
      simp only [squeeze, hc, heq, List.head?_cons, Option.any_some, Bool.false_eq_true, if_false,
        List.nil_append]
      cases cs with
      | nil =>
        refine ⟨bs, hbs, ?_⟩
        rw [words_of_isWord ⟨List.cons_ne_nil _ _, by simpa using hc⟩]
        rfl
      | cons d cs =>
        by_cases hd : isBlank d = true
        · have hword : IsWord [c] := ⟨List.cons_ne_nil _ _, by simpa using hc⟩
          have hwords : words (c :: d :: cs) = [c] :: words cs := words_append_of_isWord hword hd cs
          rw [hwords, words_cons_blank hd]
          simp only [List.head?_cons, Option.any_some, hd, if_true]
          cases words cs with
          | nil => exact ⟨' ' :: bs, List.forall_mem_cons.mpr ⟨rfl, hbs⟩, rfl⟩
          | cons v ws => exact ⟨bs, hbs, rfl⟩
        · rw [Bool.not_eq_true] at hd
          obtain ⟨w, ws, hwords, hwords'⟩ := words_cons_cons hc hd cs
          refine ⟨bs, hbs, ?_⟩
          rw [hwords', hwords, joinWords_cons_cons]
          simp [hd]

theorem trim_blanks_append (hbs : ∀ b ∈ bs, isBlank b = true) (cs : List Char) :
    trim (bs ++ cs) = trim cs := by
  induction bs with
  | nil => rfl
  | cons b bs ih =>
    obtain ⟨hb, hbs⟩ := List.forall_mem_cons.mp hbs
    rw [← ih hbs, List.cons_append, trim_eq, trim_eq, trimStart, List.dropWhile_cons_of_pos hb]
    rfl

theorem trim_append_blanks (hbs : ∀ b ∈ bs, isBlank b = true) (cs : List Char) :
    trim (cs ++ bs) = trim cs := by
  induction bs generalizing cs with
  | nil => rw [List.append_nil]
  | cons b bs ih =>
    obtain ⟨hb, hbs⟩ := List.forall_mem_cons.mp hbs
    rw [← List.singleton_append, ← List.append_assoc, ih hbs, trim_append_blank hb]

/-- Squeezed and trimmed, a text is its words with single spaces between them. -/
theorem trim_squeeze (cs : List Char) : trim (squeeze cs) = joinWords (words cs) := by
  obtain ⟨bs, hbs, heq⟩ := exists_squeeze_eq cs
  have hspace : ∀ b ∈ if cs.head?.any isBlank then [' '] else [], isBlank b = true := by
    intro b hb
    split at hb
    · rw [List.mem_singleton.mp hb]
      rfl
    · cases hb
  rw [heq, trim_append_blanks hbs, trim_blanks_append hspace, joinWords_eq_intercalate,
    trim_intercalate (isWord_of_mem_words cs)]

end

/-- Tabs, wide spaces and carriage returns count as blanks. -/
example : squeeze "\t1  2 \u3000\r".toList = " 1 2 ".toList := by decide

end Annealing.Text
