import Annealing.Decimal.Numeral

/-!
# Numerals

A numeral for a natural number is a row of digits after at most one plus sign,
with the value that the digits have to base ten. What is written of a number
is such a numeral, and reading gives the number back as long as it fits into
its word.
-/
namespace Annealing.Numeral

/-- A text of digits, after at most one plus sign, that stands for a natural number. -/
def Denotes (token : List Char) (n : Nat) : Prop :=
  ∃ digits, (token = digits ∨ token = '+' :: digits) ∧ digits ≠ [] ∧
    (∀ c ∈ digits, c.isDigit = true) ∧ Nat.ofDigitChars 10 digits 0 = n

section
variable {cs : List Char} {n : Nat}

theorem digits?_eq_some_iff : digits? cs = some n ↔
    cs ≠ [] ∧ (∀ c ∈ cs, c.isDigit = true) ∧ Nat.ofDigitChars 10 cs 0 = n := by
  rw [digits?, Nat.ofDigitChars_eq_foldl]
  split
  case isTrue h =>
    simp only [Bool.or_eq_true, List.isEmpty_iff, Bool.not_eq_true', List.all_eq_false] at h
    simp only [reduceCtorEq, false_iff, not_and]
    rintro hne hdigits
    obtain h | ⟨c, hc, hdigit⟩ := h
    · exact absurd h hne
    · exact absurd (hdigits c hc) hdigit
  case isFalse h =>
    simp only [Bool.or_eq_true, List.isEmpty_iff, Bool.not_eq_true', not_or,
      Bool.not_eq_false, List.all_eq_true] at h
    rw [Option.some.injEq]
    exact ⟨fun hvalue => ⟨h.1, h.2, hvalue⟩, fun hall => hall.2.2⟩

theorem dropPlus_of_digits (h : ∀ c ∈ cs, c.isDigit = true) : dropPlus cs = cs := by
  match cs with
  | [] => rfl
  | c :: cs =>
    have hc : c ≠ '+' := by
      rintro rfl
      exact absurd (h _ List.mem_cons_self) (by decide)
    exact dropPlus.eq_2 _ fun _ heq => hc (List.cons.inj heq).1

theorem natural?_eq_some_iff : natural? cs = some n ↔ Denotes cs n := by
  rw [natural?, digits?_eq_some_iff]
  constructor
  · intro h
    refine ⟨dropPlus cs, ?_, h⟩
    unfold dropPlus
    split
    · exact .inr rfl
    · exact .inl rfl
  · rintro ⟨digits, rfl | rfl, hne, hdigits, hvalue⟩
    · rw [dropPlus_of_digits hdigits]
      exact ⟨hne, hdigits, hvalue⟩
    · exact ⟨hne, hdigits, hvalue⟩

/-- A numeral begins with a digit or a plus sign. -/
theorem Denotes.head {c : Char} (h : Denotes (c :: cs) n) : c = '+' ∨ c.isDigit = true := by
  obtain ⟨digits, heq | heq, -, hdigits, -⟩ := h
  · exact .inr (hdigits c (heq ▸ List.mem_cons_self))
  · exact .inl (List.cons.inj heq).1

/-- A word is read from the numerals of its value. -/
theorem unsigned?_eq_some_iff {w : UInt64} : unsigned? cs = some w ↔ Denotes cs w.toNat := by
  simp only [unsigned?, Option.bind_eq_some_iff, natural?_eq_some_iff]
  constructor
  · rintro ⟨n, hn, h⟩
    split at h
    case isTrue hlt =>
      cases h
      rwa [UInt64.toNat_ofNat_of_lt' hlt]
    case isFalse => cases h
  · intro h
    refine ⟨w.toNat, h, ?_⟩
    rw [if_pos w.toNat_lt_size, UInt64.ofNat_toNat]

theorem digits?_repr (n : Nat) : digits? n.repr.toList = some n := by
  rw [digits?_eq_some_iff, Nat.toList_repr]
  refine ⟨Nat.toDigits_ne_nil, ?_, Nat.ofDigitChars_ten_toDigits⟩
  intro c hc
  exact Nat.isDigit_of_mem_toDigits (by decide) (by decide) hc

theorem natural?_repr (n : Nat) : natural? n.repr.toList = some n := by
  rw [natural?, dropPlus_of_digits (digits?_eq_some_iff.mp (digits?_repr n)).2.1, digits?_repr]

theorem unsigned?_repr (w : UInt64) : unsigned? w.toNat.repr.toList = some w :=
  unsigned?_eq_some_iff.mpr (natural?_eq_some_iff.mp (natural?_repr _))

theorem signed?_repr (h : n < 0x8000000000000000) : signed? n.repr.toList = some (n : Int) := by
  have hdigits := (digits?_eq_some_iff.mp (digits?_repr n)).2.1
  unfold signed?
  split
  case h_1 cs heq =>
    exact absurd (hdigits '-' (heq ▸ List.mem_cons_self)) (by decide)
  case h_2 => rw [natural?_repr, Option.bind_some, if_pos h]

theorem signed?_minus_repr (h : n ≤ 0x8000000000000000) :
    signed? ('-' :: n.repr.toList) = some (-n : Int) := by
  rw [signed?, digits?_repr, Option.bind_some, if_pos h]

end
end Annealing.Numeral
