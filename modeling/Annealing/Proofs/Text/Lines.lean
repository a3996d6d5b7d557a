import Annealing.Proofs.Text.Fields
import Annealing.Proofs.Text.Words
import Mathlib.Data.List.Forall2

/-!
# Lines of a text

Lines that are written one after the other, each ended by a newline, are the
lines of the result. They must not have a newline in them, nor a carriage
return at the end, which would belong to the ending. The lines of any text are
its fields between newlines, but for such carriage returns and for what stands
behind the last newline.
-/
namespace Annealing.Text

/-- A line as it can be written: there is no newline in it and no carriage return at its end. -/
def IsLine (l : List Char) : Prop := '\n' ∉ l ∧ l.getLast? ≠ some '\r'

/-- Lines written one after the other, each ended by a newline. -/
def unlines (ls : List String) : String := String.join (ls.map (· ++ "\n"))

/-- The lines that are not blank. -/
def nonBlank (ls : List (List Char)) : List (List Char) := ls.filter fun l => !l.all isBlank

/-- Characters in front of a newline are the beginning of its line. -/
theorem foldr_consLine {l : List Char} (h : IsLine l) (m : List Char) (ls : List (List Char)) :
    ∃ atNewline, l.foldr consLine (true, m :: ls) = (atNewline, (l ++ m) :: ls) ∧
      (l ≠ [] → atNewline = false) := by
  obtain ⟨hnewline, hreturn⟩ := h
  induction l with
  | nil => exact ⟨true, rfl, fun h => absurd rfl h⟩
  | cons c l ih =>
    have hc : c ≠ '\n' := fun h => hnewline (h ▸ List.mem_cons_self)
    refine ⟨false, ?_, fun _ => rfl⟩
    cases l with
    | nil =>
      have hc' : c ≠ '\r' := fun h => hreturn (h ▸ rfl)
      simp [consLine, hc, hc']
    | cons d l =>
      rw [List.getLast?_cons_cons] at hreturn
      obtain ⟨atNewline, heq, hflag⟩ := ih (fun h => hnewline (List.mem_cons_of_mem _ h)) hreturn
      rw [List.foldr_cons, heq, hflag (List.cons_ne_nil _ _)]
      simp [consLine, hc]

theorem length_consLine_le (c : Char) (cut : Bool × List (List Char)) :
    (consLine c cut).2.length ≤ cut.2.length + 1 := by
  unfold consLine
  split
  · exact le_rfl
  · split
    · exact Nat.le_succ _
    · split
      next heq => simp [heq]
      next heq => simp [heq]

/-- Every line has a character of its own, which may be its newline. -/
theorem length_lines_le (cs : List Char) : (lines cs).length ≤ cs.length := by
  unfold lines
  induction cs with
  | nil => exact le_rfl
  | cons c cs ih => exact (length_consLine_le c _).trans (Nat.succ_le_succ ih)

theorem lines_append_newline {l : List Char} (h : IsLine l) (rest : List Char) :
    lines (l ++ '\n' :: rest) = l :: lines rest := by
  have hnewline : ('\n' :: rest).foldr consLine (false, []) = (true, [] :: lines rest) := by
    rw [List.foldr_cons, consLine, if_pos rfl]
    rfl
  obtain ⟨atNewline, heq, -⟩ := foldr_consLine h [] (lines rest)
  rw [lines, List.foldr_append, hnewline, heq, List.append_nil]

theorem lines_unlines {ls : List String} (h : ∀ l ∈ ls, IsLine l.toList) :
    lines (unlines ls).toList = ls.map String.toList := by
  induction ls with
  | nil => rfl
  | cons l ls ih =>
    have hcons : (unlines (l :: ls)).toList = l.toList ++ '\n' :: (unlines ls).toList := by
      simp [unlines, String.toList_join]
    rw [hcons, lines_append_newline (h l List.mem_cons_self),
      ih fun x hx => h x (List.mem_cons_of_mem _ hx), List.map_cons]

/-- A field between newlines as a line: a carriage return at its end may be gone. -/
def Stripped (l f : List Char) : Prop := l = f ∨ l ++ ['\r'] = f

theorem Stripped.cons {l f : List Char} (h : Stripped l f) (c : Char) :
    Stripped (c :: l) (c :: f) :=
  h.imp (congrArg _) (congrArg _)

theorem Stripped.words_eq {l f : List Char} (h : Stripped l f) : words l = words f := by
  obtain rfl | rfl := h
  · rfl
  · rw [words_append_blanks (List.forall_mem_singleton.mpr rfl)]

theorem Stripped.trim_eq {l f : List Char} (h : Stripped l f) : trim l = trim f := by
  obtain rfl | rfl := h
  · rfl
  · exact (trim_append_blank rfl l).symm

/-- The lines of a text are its fields, except for a last one that is empty. -/
theorem forall₂_lines_fields (cs : List Char) : ∃ rest, (rest = [] ∨ rest = [[]]) ∧
    List.Forall₂ Stripped (lines cs ++ rest) (fields '\n' cs) ∧
    ((cs.foldr consLine (false, [])).1 = true → (fields '\n' cs).head? = some []) := by
  induction cs with
  | nil => exact ⟨[[]], .inr rfl, .cons (.inl rfl) .nil, by simp⟩
  | cons c cs ih =>
    obtain ⟨rest, hrest, hall, hflag⟩ := ih
    rw [lines] at hall ⊢
    rw [fields_eq_splitOn] at hall hflag ⊢
    obtain ⟨f, fs, hfields⟩ := List.exists_cons_of_ne_nil (List.splitOn_ne_nil '\n' cs)
    rw [List.splitOn_cons_eq_if_modifyHead, List.foldr_cons]
    rw [hfields] at hall hflag ⊢
    generalize cs.foldr consLine (false, []) = cut at hall hflag ⊢
    obtain ⟨atNewline, ls⟩ := cut
    by_cases hnewline : c = '\n'
    · simp only [consLine, beq_iff_eq, if_pos hnewline]
      exact ⟨rest, hrest, .cons (.inl rfl) hall, fun _ => rfl⟩
    · simp only [consLine, beq_iff_eq, if_neg hnewline, List.modifyHead_cons]
      by_cases hreturn : c = '\r' ∧ atNewline = true
      · -- The carriage return is the whole field, and the line is empty.
        obtain rfl : f = [] := by simpa using hflag hreturn.2
        rw [if_pos hreturn]
        obtain ⟨l, ls', hl, hls, hcons⟩ := List.forall₂_cons_right_iff.mp hall
        have hempty : l = [] := hl.elim id fun h => absurd h (by simp)
        refine ⟨rest, hrest, ?_, by simp⟩
        rw [hcons, hempty, hreturn.1]
        exact .cons (.inr rfl) hls
      · rw [if_neg hreturn]
        cases ls with
        | nil =>
          obtain rfl | rfl := hrest
          · cases hall
          · obtain ⟨hf, hfs⟩ := List.forall₂_cons.mp hall
            exact ⟨[], .inl rfl, .cons (hf.cons c) hfs, by simp⟩
        | cons l ls =>
          obtain ⟨hl, hls⟩ := List.forall₂_cons.mp hall
          exact ⟨rest, hrest, .cons (hl.cons c) hls, by simp⟩

/-- Joined words make a line, since newlines and carriage returns are blank. -/
theorem isLine_intercalate {ws : List (List Char)} (hws : ∀ w ∈ ws, IsWord w) :
    IsLine (List.intercalate [' '] ws) := by
  have hblank : isBlank '\n' = true ∧ isBlank '\r' = true := by decide
  constructor
  · intro hmem
    obtain h | ⟨w, hw, hc⟩ := mem_intercalate hmem
    · exact absurd h (by decide)
    · simpa [hblank.1] using (hws w hw).2 _ hc
  · intro hlast
    rw [getLast?_intercalate hws] at hlast
    obtain ⟨w, hw, hc⟩ := Option.bind_eq_some_iff.mp hlast
    simpa [hblank.2] using (hws w (List.mem_of_getLast? hw)).2 _ (List.mem_of_getLast? hc)

/-- A place in a numbered list is a place in the list. -/
theorem zipIdx_eq_append_cons_iff {α : Type} {xs : List α} {k n : Nat} {x : α}
    {before after : List (α × Nat)} : xs.zipIdx k = before ++ (x, n) :: after ↔
      ∃ before' after', xs = before' ++ x :: after' ∧ n = k + before'.length ∧
        before = before'.zipIdx k ∧ after = after'.zipIdx (k + before'.length + 1) := by
  rw [List.zipIdx_eq_append_iff]
  constructor
  · rintro ⟨xs₁, xs₂, rfl, rfl, h⟩
    obtain ⟨a, after', rfl, heq, rfl⟩ := List.zipIdx_eq_cons_iff.mp h.symm
    cases heq
    exact ⟨xs₁, after', rfl, rfl, rfl, rfl⟩
  · rintro ⟨before', after', rfl, rfl, rfl, rfl⟩
    exact ⟨before', x :: after', rfl, rfl, rfl⟩

end Annealing.Text
