/-!
# Totals of 64-bit words

Weights and prices are unsigned 64-bit words. The totals of an instance are
found once, with a check that they are words again; after that the total of
any part of the instance is a word too, and is kept by adding and subtracting.
-/
namespace Annealing.Totals

/-- The sum of two words, if it is a word. -/
def add? (a b : UInt64) : Option UInt64 :=
  if a.toNat + b.toNat < UInt64.size then some (a + b) else none

/-- The sum of some words, if it is a word. -/
def sum? (ws : List UInt64) : Option UInt64 := ws.foldlM add? 0

/-- The exact sum of some words. -/
def exact (ws : List UInt64) : Nat := ws.foldr (fun w total => w.toNat + total) 0

theorem add?_eq_some_iff {a b c : UInt64} :
    add? a b = some c ↔ a.toNat + b.toNat = c.toNat := by
  have hc := c.toNat_lt_size
  unfold add?
  split
  next h =>
    rw [Option.some.injEq, ← UInt64.toNat_inj, UInt64.toNat_add, Nat.mod_eq_of_lt h]
  next h => simp only [reduceCtorEq, false_iff]; omega

theorem foldlM_add?_eq_some_iff (ws : List UInt64) {a c : UInt64} :
    ws.foldlM add? a = some c ↔ a.toNat + exact ws = c.toNat := by
  induction ws generalizing a with
  | nil => simp [exact, UInt64.toNat_inj]
  | cons w ws ih =>
    rw [List.foldlM_cons]
    cases h : add? a w with
    | none =>
      have hc := c.toNat_lt_size
      have : ¬ a.toNat + w.toNat < UInt64.size := by
        intro hlt
        rw [add?, if_pos hlt] at h
        exact Option.some_ne_none _ h
      simp only [Option.bind_eq_bind, Option.bind_none, reduceCtorEq, false_iff, exact,
        List.foldr_cons]
      omega
    | some b =>
      rw [add?_eq_some_iff] at h
      simp only [Option.bind_eq_bind, Option.bind_some, ih, exact, List.foldr_cons]
      omega

/-- The checked sum is the exact one whenever that is a word. -/
theorem sum?_eq_some_iff {ws : List UInt64} {c : UInt64} :
    sum? ws = some c ↔ exact ws = c.toNat := by
  simp [sum?, foldlM_add?_eq_some_iff]

end Annealing.Totals
