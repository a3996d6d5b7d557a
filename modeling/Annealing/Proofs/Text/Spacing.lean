import Annealing.Proofs.Text.Lines
import Mathlib.Data.List.Forall2

/-!
# Texts that differ in spacing

Two texts have the same words if their lines pair up and paired lines have the
same words. How lines are ended, indented and spaced does not count then. What
is left of two paired lines when they are trimmed begins with the same
character and goes on with the same words.
-/
namespace Annealing.Text

/-- Lines pair up, and paired lines have the same words. -/
def SameWords (t u : String) : Prop :=
  List.Forall₂ (fun l m => words l = words m) (lines t.toList) (lines u.toList)

instance (t u : String) : Decidable (SameWords t u) :=
  inferInstanceAs (Decidable (List.Forall₂ _ _ _))

section
variable {c : Char} {l m : List Char}

theorem isWord_of_mem_words (cs : List Char) : ∀ w ∈ words cs, IsWord w := by
  induction cs with
  | nil => simp
  | cons c cs ih =>
    by_cases hc : isBlank c = true
    · rwa [words_cons_blank hc]
    · rw [Bool.not_eq_true] at hc
      have hcons : ∀ w, (∀ d ∈ w, isBlank d = false) → IsWord (c :: w) := fun w hw =>
        ⟨List.cons_ne_nil _ _, List.forall_mem_cons.mpr ⟨hc, hw⟩⟩
      rw [words] at ih ⊢
      rw [List.foldr_cons]
      generalize cs.foldr consWord (false, []) = inner at ih ⊢
      simp only [consWord, hc, Bool.false_eq_true, if_false]
      split
      case h_1 w ws =>
        obtain ⟨hw, hws⟩ := List.forall_mem_cons.mp ih
        exact List.forall_mem_cons.mpr ⟨hcons w hw.2, hws⟩
      case h_2 => exact List.forall_mem_cons.mpr ⟨hcons [] (by simp), ih⟩

/-- The first word goes on with the text behind its first character, or ends there. -/
theorem words_cons (hc : isBlank c = false) (cs : List Char) : ∃ w ws,
    words (c :: cs) = (c :: w) :: ws ∧ words cs = if w = [] then ws else w :: ws := by
  have hwords := isWord_of_mem_words cs
  rw [words, List.foldr_cons]
  rw [words] at hwords ⊢
  generalize cs.foldr consWord (false, []) = inner at hwords ⊢
  obtain ⟨_ | _, _ | ⟨w, ws⟩⟩ := inner <;> simp_all [consWord, IsWord]

theorem words_eq_of_cons (hc : isBlank c = false) (h : words (c :: l) = words (c :: m)) :
    words l = words m := by
  obtain ⟨w, ws, hl, hl'⟩ := words_cons hc l
  obtain ⟨v, vs, hm, hm'⟩ := words_cons hc m
  rw [hl, hm] at h
  cases h
  rw [hl', hm']

theorem isEmpty_trim (l : List Char) : (trim l).isEmpty = (words l).isEmpty := by
  rw [Bool.eq_iff_iff, List.isEmpty_iff, List.isEmpty_iff, trim_eq_nil_iff, words_eq_nil_iff]

/-- Trimmed lines with the same words are empty, or they have their first character and the
words behind it in common. -/
theorem trim_cases (h : words l = words m) : trim l = [] ∧ trim m = [] ∨
    ∃ c x y, trim l = c :: x ∧ trim m = c :: y ∧ words (c :: x) = words (c :: y) ∧
      words x = words y := by
  have hhead : (trim l).head? = (trim m).head? := by rw [head?_trim, head?_trim, h]
  have htrim : words (trim l) = words (trim m) := by rw [words_trim, words_trim, h]
  cases hl : trim l with
  | nil =>
    rw [hl, List.head?_nil, eq_comm, List.head?_eq_none_iff] at hhead
    exact .inl ⟨rfl, hhead⟩
  | cons c x =>
    rw [hl, List.head?_cons, eq_comm, List.head?_eq_some_iff] at hhead
    obtain ⟨y, hm⟩ := hhead
    have hc : isBlank c = false := by
      have hword : (words l).head?.bind List.head? = some c := by rw [← head?_trim, hl]; rfl
      obtain ⟨w, hw, hhead⟩ := Option.bind_eq_some_iff.mp hword
      exact (isWord_of_mem_words l w (List.mem_of_head? hw)).2 c (List.mem_of_head? hhead)
    rw [hl, hm] at htrim
    exact .inr ⟨c, x, y, rfl, hm, htrim, words_eq_of_cons hc htrim⟩

end

/-! ## Lists in pairs -/

section
variable {α β : Type} {R : α → β → Prop} {xs : List α} {ys : List β}

theorem forall₂_zipIdx (h : List.Forall₂ R xs ys) (k : Nat) :
    List.Forall₂ (fun x y => R x.1 y.1 ∧ x.2 = y.2) (xs.zipIdx k) (ys.zipIdx k) := by
  induction h generalizing k with
  | nil => exact .nil
  | cons hxy _ ih => exact .cons ⟨hxy, rfl⟩ (ih (k + 1))

theorem forall₂_takeWhile {p : α → Bool} {q : β → Bool} (h : List.Forall₂ R xs ys)
    (hpq : ∀ x y, R x y → p x = q y) :
    List.Forall₂ R (xs.takeWhile p) (ys.takeWhile q) := by
  induction h with
  | nil => exact .nil
  | @cons x y xs ys hxy _ ih =>
    rw [List.takeWhile_cons, List.takeWhile_cons, hpq x y hxy]
    cases q y with
    | true => exact .cons hxy ih
    | false => exact .nil

theorem forall₂_filter {p : α → Bool} {q : β → Bool} (h : List.Forall₂ R xs ys)
    (hpq : ∀ x y, R x y → p x = q y) : List.Forall₂ R (xs.filter p) (ys.filter q) :=
  List.rel_filter (fun x y hxy => iff_of_eq (congrArg (· = true) (hpq x y hxy))) h

theorem any_eq_of_forall₂ {p : α → Bool} {q : β → Bool} (h : List.Forall₂ R xs ys)
    (hpq : ∀ x y, R x y → p x = q y) : xs.any p = ys.any q := by
  induction h with
  | nil => rfl
  | cons hxy _ ih => rw [List.any_cons, List.any_cons, hpq _ _ hxy, ih]

end
end Annealing.Text
