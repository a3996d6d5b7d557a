import Mathlib.Data.List.Forall2

/-!
# Attempts in a row

A row of attempts succeeds if every one of them does, and its results are the
results of the attempts in order. It fails with the first attempt that fails.
-/
namespace Annealing

variable {α β γ ε δ : Type}

theorem bind_eq_ok_iff {x : Except ε α} {f : α → Except ε β} {b : β} :
    x.bind f = .ok b ↔ ∃ a, x = .ok a ∧ f a = .ok b := by
  cases x with
  | error e => simp [Except.bind]
  | ok a => simp [Except.bind]

theorem andThen_eq_ok_iff {x : Except ε α} {f : α → Except ε β} {b : β} :
    (x >>= f) = .ok b ↔ ∃ a, x = .ok a ∧ f a = .ok b := bind_eq_ok_iff

theorem map_eq_ok_iff {x : Except ε α} {f : α → β} {b : β} :
    x.map f = .ok b ↔ ∃ a, x = .ok a ∧ f a = b := by
  cases x with
  | error e => simp [Except.map]
  | ok a => simp [Except.map]

theorem mapError_eq_ok_iff {x : Except ε α} {f : ε → δ} {a : α} :
    x.mapError f = .ok a ↔ x = .ok a := by
  cases x with
  | error e => simp [Except.mapError]
  | ok a => simp [Except.mapError]

theorem bind_eq_error_iff {x : Except ε α} {f : α → Except ε β} {e : ε} :
    x.bind f = .error e ↔ x = .error e ∨ ∃ a, x = .ok a ∧ f a = .error e := by
  cases x with
  | error e' => simp [Except.bind]
  | ok a => simp [Except.bind]

theorem mapM_cons_eq (f : α → Except ε β) (x : α) (xs : List α) : (x :: xs).mapM f =
    (f x).bind fun y => (xs.mapM f).bind fun ys => .ok (y :: ys) := List.mapM_cons

theorem mapM_eq_ok_iff {f : α → Except ε β} {xs : List α} {ys : List β} :
    xs.mapM f = .ok ys ↔ List.Forall₂ (fun x y => f x = .ok y) xs ys := by
  induction xs generalizing ys with
  | nil =>
    rw [List.mapM_nil, List.forall₂_nil_left_iff]
    constructor
    · intro h
      cases h
      rfl
    · rintro rfl
      rfl
  | cons x xs ih =>
    simp only [mapM_cons_eq, bind_eq_ok_iff, ih, List.forall₂_cons_left_iff, Except.ok.injEq]
    constructor
    · rintro ⟨y, hy, ys, hys, rfl⟩
      exact ⟨y, ys, hy, hys, rfl⟩
    · rintro ⟨y, ys, hy, hys, rfl⟩
      exact ⟨y, hy, ys, hys, rfl⟩

theorem exists_of_mem_mapM {f : α → Except ε β} {xs : List α} {ys : List β} {y : β}
    (h : xs.mapM f = .ok ys) (hy : y ∈ ys) : ∃ x ∈ xs, f x = .ok y := by
  rw [mapM_eq_ok_iff] at h
  induction h with
  | nil => cases hy
  | cons hxy _ ih =>
    rcases List.mem_cons.mp hy with rfl | hy
    · exact ⟨_, List.mem_cons_self, hxy⟩
    · obtain ⟨x, hx, hxy⟩ := ih hy
      exact ⟨x, List.mem_cons_of_mem _ hx, hxy⟩

theorem exists_of_mapM {f : α → Except ε β} {xs : List α} {ys : List β} {x : α}
    (h : xs.mapM f = .ok ys) (hx : x ∈ xs) : ∃ y ∈ ys, f x = .ok y := by
  rw [mapM_eq_ok_iff] at h
  induction h with
  | nil => cases hx
  | cons hxy _ ih =>
    rcases List.mem_cons.mp hx with rfl | hx
    · exact ⟨_, List.mem_cons_self, hxy⟩
    · obtain ⟨y, hy, hxy⟩ := ih hx
      exact ⟨y, List.mem_cons_of_mem _ hy, hxy⟩

theorem exists_mapM {f : α → Except ε β} {xs : List α} (h : ∀ x ∈ xs, ∃ y, f x = .ok y) :
    ∃ ys, xs.mapM f = .ok ys := by
  simp only [mapM_eq_ok_iff]
  induction xs with
  | nil => exact ⟨[], .nil⟩
  | cons x xs ih =>
    obtain ⟨y, hy⟩ := h x List.mem_cons_self
    obtain ⟨ys, hys⟩ := ih fun z hz => h z (List.mem_cons_of_mem _ hz)
    exact ⟨y :: ys, .cons hy hys⟩

/-- Attempts that agree one by one agree in a row. -/
theorem mapM_congr_of_forall₂ {f : α → Except ε γ} {g : β → Except ε γ} {xs : List α}
    {ys : List β} (h : List.Forall₂ (fun x y => f x = g y) xs ys) : xs.mapM f = ys.mapM g := by
  induction h with
  | nil => rfl
  | cons hxy _ ih => rw [mapM_cons_eq, mapM_cons_eq, hxy, ih]

/-- Steps that agree on every state one by one agree in a row. -/
theorem foldlM_congr_of_forall₂ {f : γ → α → Except ε γ} {g : γ → β → Except ε γ} {xs : List α}
    {ys : List β} (h : List.Forall₂ (fun x y => ∀ s, f s x = g s y) xs ys) (s : γ) :
    xs.foldlM f s = ys.foldlM g s := by
  induction h generalizing s with
  | nil => rfl
  | cons hxy _ ih =>
    rw [List.foldlM_cons, List.foldlM_cons, hxy s]
    exact congrArg _ (funext ih)

/-- Attempts at some elements of a list fail with the first of these elements that fails. -/
theorem mapM_filter_eq_error_iff {f : α → Except ε β} {p : α → Bool} {xs : List α} {e : ε} :
    (xs.filter p).mapM f = .error e ↔ ∃ before x after, xs = before ++ x :: after ∧
      p x = true ∧ f x = .error e ∧ ∀ y ∈ before, p y = true → ∃ b, f y = .ok b := by
  induction xs with
  | nil =>
    rw [List.filter_nil, List.mapM_nil]
    constructor
    · intro h
      cases h
    · rintro ⟨before, x, after, hnil, -⟩
      simp at hnil
  | cons x xs ih =>
    -- The first failing element is the head, or it is found after a head that did not fail.
    have hsplit : (∃ before y after, x :: xs = before ++ y :: after ∧ p y = true ∧
        f y = .error e ∧ ∀ z ∈ before, p z = true → ∃ b, f z = .ok b) ↔
        p x = true ∧ f x = .error e ∨ (p x = true → ∃ b, f x = .ok b) ∧
          (xs.filter p).mapM f = .error e := by
      rw [ih]
      constructor
      · rintro ⟨_ | ⟨z, before⟩, y, after, heq, hy, herror, hbefore⟩
        · cases heq
          exact .inl ⟨hy, herror⟩
        · cases heq
          obtain ⟨hz, hbefore⟩ := List.forall_mem_cons.mp hbefore
          exact .inr ⟨hz, before, y, after, rfl, hy, herror, hbefore⟩
      · rintro (⟨hx, herror⟩ | ⟨hx, before, y, after, rfl, hy, herror, hbefore⟩)
        · exact ⟨[], x, xs, rfl, hx, herror, by simp⟩
        · exact ⟨x :: before, y, after, rfl, hy, herror, List.forall_mem_cons.mpr ⟨hx, hbefore⟩⟩
    rw [hsplit]
    by_cases hx : p x = true
    · rw [List.filter_cons_of_pos hx, mapM_cons_eq, bind_eq_error_iff]
      simp only [bind_eq_error_iff, hx, true_and, true_implies, reduceCtorEq, and_false,
        exists_false, or_false, exists_and_right]
    · rw [List.filter_cons_of_neg hx]
      simp only [hx, false_and, false_or, Bool.false_eq_true, false_implies, true_and]

end Annealing
