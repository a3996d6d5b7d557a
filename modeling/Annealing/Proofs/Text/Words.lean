import Annealing.Text.Blank
import Mathlib.Data.List.DropRight

/-!
# Words of a text

A text is cut into words at every blank. So words that are joined by blanks
are the words of the result, and blanks at the ends of a text do not matter.
Trimming takes away the blanks at the ends and nothing else.
-/
namespace Annealing.Text

/-- A word is not empty and has no blank in it. -/
def IsWord (w : List Char) : Prop := w ≠ [] ∧ ∀ c ∈ w, isBlank c = false

instance (w : List Char) : Decidable (IsWord w) :=
  decidable_of_iff (w ≠ [] ∧ w.all (!isBlank ·) = true) (by simp [IsWord])

theorem IsWord.append {v w : List Char} (hv : IsWord v) (hw : ∀ c ∈ w, isBlank c = false) :
    IsWord (v ++ w) :=
  ⟨List.append_ne_nil_of_left_ne_nil hv.1 w, List.forall_mem_append.mpr ⟨hv.2, hw⟩⟩

theorem isBlank_of_isDigit {c : Char} (h : c.isDigit = true) : isBlank c = false := by
  have hrange : 48 ≤ c.toNat ∧ c.toNat ≤ 57 := by
    simpa [Char.isDigit, UInt32.le_iff_toNat_le] using h
  simp [isBlank, blankRanges]
  omega

theorem isWord_toDigits (n : Nat) : IsWord (Nat.toDigits 10 n) := by
  refine ⟨Nat.toDigits_ne_nil, ?_⟩
  intro c hc
  exact isBlank_of_isDigit (Nat.isDigit_of_mem_toDigits (by decide) (by decide) hc)

theorem isWord_repr (n : Nat) : IsWord n.repr.toList := by
  rw [Nat.toList_repr]
  exact isWord_toDigits n

section
variable {b c : Char} {cs w rest : List Char} {cut : Bool × List (List Char)}

/-- A word in front of a text that does not begin inside a word is its first one. -/
theorem foldr_consWord (hw : IsWord w) (hcut : cut.1 = false) :
    w.foldr consWord cut = (true, w :: cut.2) := by
  obtain ⟨hne, hfree⟩ := hw
  induction w with
  | nil => exact absurd rfl hne
  | cons c w ih =>
    have hc : isBlank c = false := hfree c List.mem_cons_self
    cases w with
    | nil =>
      obtain ⟨inside, ws⟩ := cut
      cases hcut
      simp [consWord, hc]
    | cons d w =>
      have htail : ∀ x ∈ d :: w, isBlank x = false := fun x hx =>
        hfree x (List.mem_cons_of_mem _ hx)
      rw [List.foldr_cons, ih (List.cons_ne_nil _ _) htail]
      simp [consWord, hc]

/-- What follows a blank is cut on its own. -/
theorem foldr_consWord_append (hcut : cut.1 = false) (cs : List Char) :
    cs.foldr consWord cut =
      ((cs.foldr consWord (false, [])).1, words cs ++ cut.2) ∧
        ((cs.foldr consWord (false, [])).1 = true → words cs ≠ []) := by
  induction cs with
  | nil =>
    obtain ⟨inside, ws⟩ := cut
    cases hcut
    simp
  | cons c cs ih =>
    obtain ⟨heq, hne⟩ := ih
    rw [words] at heq hne ⊢
    rw [List.foldr_cons, List.foldr_cons, heq]
    by_cases hc : isBlank c = true
    · simp [consWord, hc]
    · generalize cs.foldr consWord (false, []) = inner at hne ⊢
      obtain ⟨_ | _, _ | ⟨w, ws⟩⟩ := inner <;> simp [consWord, hc] at hne ⊢

/-- A text is cut at a blank. -/
theorem words_append_blank (hb : isBlank b = true) (cs rest : List Char) :
    words (cs ++ b :: rest) = words cs ++ words rest := by
  have hrest : ((b :: rest).foldr consWord (false, [])).1 = false := by
    simp [consWord, hb]
  rw [words, List.foldr_append, (foldr_consWord_append hrest cs).1]
  change words cs ++ words (b :: rest) = _
  rw [words_cons_blank hb]

theorem words_of_isWord (hw : IsWord w) : words w = [w] := by
  rw [words, foldr_consWord hw rfl]

theorem words_append_of_isWord (hw : IsWord w) (hb : isBlank b = true) (rest : List Char) :
    words (w ++ b :: rest) = w :: words rest := by
  rw [words_append_blank hb, words_of_isWord hw, List.singleton_append]

theorem mem_intercalate {ws : List (List Char)} (h : c ∈ List.intercalate [b] ws) :
    c = b ∨ ∃ w ∈ ws, c ∈ w := by
  induction ws with
  | nil => cases h
  | cons w ws ih =>
    cases ws with
    | nil => exact .inr ⟨w, List.mem_cons_self, by simpa using h⟩
    | cons v ws =>
      simp only [List.intercalate_cons_cons, List.mem_append, List.mem_singleton] at h
      rcases h with (h | h) | h
      · exact .inr ⟨w, List.mem_cons_self, h⟩
      · exact .inl h
      · exact (ih h).imp id fun ⟨u, hu, hc⟩ => ⟨u, List.mem_cons_of_mem _ hu, hc⟩

/-- Words that are joined by a blank are the words of the result. -/
theorem words_intercalate (hb : isBlank b = true) {ws : List (List Char)}
    (hws : ∀ w ∈ ws, IsWord w) : words (List.intercalate [b] ws) = ws := by
  induction ws with
  | nil => rfl
  | cons w ws ih =>
    have hw := hws w List.mem_cons_self
    cases ws with
    | nil => simpa using words_of_isWord hw
    | cons v ws =>
      rw [List.intercalate_cons_cons, List.append_assoc, List.singleton_append,
        words_append_of_isWord hw hb, ih fun u hu => hws u (List.mem_cons_of_mem _ hu)]

theorem exists_words_cons (hc : isBlank c = false) (cs : List Char) :
    ∃ w ws, words (c :: cs) = (c :: w) :: ws := by
  rw [words, List.foldr_cons]
  generalize cs.foldr consWord (false, []) = inner
  obtain ⟨_ | _, _ | ⟨w, ws⟩⟩ := inner <;> simp [consWord, hc]

/-! ## Blanks at the ends -/

theorem words_blanks_append {bs : List Char} (hbs : ∀ b ∈ bs, isBlank b = true)
    (cs : List Char) : words (bs ++ cs) = words cs := by
  induction bs with
  | nil => rfl
  | cons b bs ih =>
    rw [List.cons_append, words_cons_blank (hbs b List.mem_cons_self),
      ih fun x hx => hbs x (List.mem_cons_of_mem _ hx)]

theorem words_append_blanks {bs : List Char} (hbs : ∀ b ∈ bs, isBlank b = true)
    (cs : List Char) : words (cs ++ bs) = words cs := by
  cases bs with
  | nil => rw [List.append_nil]
  | cons b bs =>
    have hrest := words_blanks_append (fun x hx => hbs x (List.mem_cons_of_mem _ hx)) []
    rw [words_append_blank (hbs b List.mem_cons_self), ← List.append_nil bs, hrest, words_nil,
      List.append_nil]

theorem words_trimStart (cs : List Char) : words (trimStart cs) = words cs := by
  conv_rhs => rw [← List.takeWhile_append_dropWhile (p := isBlank) (l := cs)]
  exact (words_blanks_append (fun c hc => (List.mem_takeWhile_imp hc)) _).symm

theorem trim_eq (cs : List Char) : trim cs = (trimStart cs).rdropWhile isBlank := rfl

theorem words_trim (cs : List Char) : words (trim cs) = words cs := by
  rw [← words_trimStart cs, trim_eq]
  conv_rhs => rw [← List.rdropWhile_append_rtakeWhile (p := isBlank) (l := trimStart cs)]
  exact (words_append_blanks (fun c hc => (List.mem_rtakeWhile_imp hc)) _).symm

/-- The first character of a text that is not blank begins its first word. -/
theorem head?_trimStart (cs : List Char) :
    (trimStart cs).head? = (words cs).head?.bind List.head? := by
  rw [← words_trimStart cs]
  cases h : trimStart cs with
  | nil => rfl
  | cons c rest =>
    have hc : isBlank c = false := by
      have hhead := List.head?_dropWhile_not isBlank cs
      rwa [show cs.dropWhile isBlank = c :: rest from h] at hhead
    obtain ⟨w, ws, hwords⟩ := exists_words_cons hc rest
    rw [hwords]
    rfl

theorem head?_trim (cs : List Char) : (trim cs).head? = (words cs).head?.bind List.head? := by
  cases h : trim cs with
  | nil =>
    rw [← words_trim, h]
    rfl
  | cons c rest =>
    obtain ⟨after, hprefix⟩ := List.rdropWhile_prefix isBlank (trimStart cs)
    rw [← head?_trimStart, ← hprefix, ← trim_eq, h]
    rfl

/-- A text without words has nothing but blanks. -/
theorem words_eq_nil_iff : words cs = [] ↔ cs.all isBlank = true := by
  induction cs with
  | nil => simp
  | cons c cs ih =>
    by_cases hc : isBlank c = true
    · rw [words_cons_blank hc, ih, List.all_cons, hc, Bool.true_and]
    · rw [Bool.not_eq_true] at hc
      obtain ⟨w, ws, hwords⟩ := exists_words_cons hc cs
      simp [hwords, hc]

theorem trim_eq_nil_iff : trim cs = [] ↔ cs.all isBlank = true := by
  rw [← words_eq_nil_iff]
  constructor
  · intro h
    rw [← words_trim, h, words_nil]
  · intro h
    rw [← List.head?_eq_none_iff, head?_trim, h]
    rfl

theorem trim_append_blank (hb : isBlank b = true) (cs : List Char) : trim (cs ++ [b]) = trim cs := by
  unfold trim trimStart
  rw [List.dropWhile_append]
  split
  case isTrue h =>
    rw [List.isEmpty_iff] at h
    rw [h, List.dropWhile_cons_of_pos hb]
    rfl
  case isFalse => rw [List.reverse_concat, List.dropWhile_cons_of_pos hb]

theorem trim_eq_self (hhead : ∀ c ∈ cs.head?, isBlank c = false)
    (hlast : ∀ c ∈ cs.getLast?, isBlank c = false) : trim cs = cs := by
  have hstart : trimStart cs = cs := by
    cases cs with
    | nil => rfl
    | cons c cs => exact List.dropWhile_cons_of_neg (by simpa using hhead c rfl)
  rw [trim_eq, hstart, List.rdropWhile_eq_self_iff]
  intro hne
  rw [hlast _ (List.getLast?_eq_getLast_of_ne_nil hne)]
  exact Bool.false_ne_true

theorem getLast?_intercalate {ws : List (List Char)} (hws : ∀ w ∈ ws, IsWord w) :
    (List.intercalate [b] ws).getLast? = ws.getLast?.bind List.getLast? := by
  induction ws with
  | nil => rfl
  | cons w ws ih =>
    cases ws with
    | nil => simp
    | cons v ws =>
      have htail := ih fun u hu => hws u (List.mem_cons_of_mem _ hu)
      obtain ⟨u, hu⟩ : ∃ u, (v :: ws).getLast? = some u := ⟨_, List.getLast?_cons⟩
      obtain ⟨c, hc⟩ : ∃ c, u.getLast? = some c := by
        have hword := hws u (List.mem_cons_of_mem _ (List.mem_of_getLast? hu))
        exact ⟨_, List.getLast?_eq_getLast_of_ne_nil hword.1⟩
      rw [hu, Option.bind_some, hc] at htail
      rw [List.intercalate_cons_cons, List.getLast?_append, htail, List.getLast?_cons_cons, hu,
        Option.bind_some, hc, Option.some_or]

/-- Joined words have no blanks at the ends. -/
theorem trim_intercalate {ws : List (List Char)} (hws : ∀ w ∈ ws, IsWord w) :
    trim (List.intercalate [b] ws) = List.intercalate [b] ws := by
  apply trim_eq_self
  · intro c hc
    cases ws with
    | nil => cases hc
    | cons w ws =>
      obtain ⟨hne, hfree⟩ := hws w List.mem_cons_self
      obtain ⟨d, w, rfl⟩ := List.exists_cons_of_ne_nil hne
      rw [List.intercalate_cons_cons_left, List.head?_cons, Option.mem_some] at hc
      exact hc ▸ hfree d List.mem_cons_self
  · intro c hc
    rw [getLast?_intercalate hws] at hc
    obtain ⟨w, hw, hc⟩ := Option.bind_eq_some_iff.mp hc
    exact (hws w (List.mem_of_getLast? hw)).2 c (List.mem_of_getLast? hc)

end
end Annealing.Text
