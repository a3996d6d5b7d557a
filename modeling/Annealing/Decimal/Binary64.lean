/-!
# Binary64 data

A binary64 datum is held by its 64 bits, so that the two zeros and all the
NaNs are data of their own. Arithmetic is done on `Float`; this module takes
a datum apart into sign, significand and exponent, and orders all data by
`rank`: negative NaNs, negative infinity, the negative numbers, `-0`, `+0`,
the positive numbers, infinity, positive NaNs.
-/
namespace Annealing

/-- A binary64 datum, given by its bit pattern. -/
structure Binary64 where
  bits : UInt64
  deriving DecidableEq, Repr, Inhabited

namespace Binary64

/-- The datum of a number. -/
def ofFloat (x : Float) : Binary64 := ⟨x.toBits⟩

/-- The number that a datum stands for; all NaNs stand for the same one. -/
def toFloat (x : Binary64) : Float := Float.ofBits x.bits

def isNegative (x : Binary64) : Bool := x.bits ≥ 0x8000000000000000

/-- The eleven exponent bits. -/
def exponentField (x : Binary64) : Nat := ((x.bits >>> 52) &&& 0x7FF).toNat

/-- The fifty-two fraction bits. -/
def fractionField (x : Binary64) : Nat := (x.bits &&& 0xFFFFFFFFFFFFF).toNat

/-- Neither infinite nor a NaN. -/
def isFinite (x : Binary64) : Bool := x.exponentField != 0x7FF

def isNaN (x : Binary64) : Bool := x.exponentField == 0x7FF && x.fractionField != 0

/-- The magnitude of a finite datum is `significand · 2 ^ exponent`. -/
def significand (x : Binary64) : Nat :=
  if x.exponentField = 0 then x.fractionField else x.fractionField + 0x10000000000000

@[inherit_doc significand]
def exponent (x : Binary64) : Int :=
  if x.exponentField = 0 then -1074 else (x.exponentField : Int) - 1075

/-- The place of a datum in the total order of all data. -/
def rank (x : Binary64) : Nat :=
  if x.isNegative then 0xFFFFFFFFFFFFFFFF - x.bits.toNat else 0x8000000000000000 + x.bits.toNat

theorem rank_injective {x y : Binary64} (h : x.rank = y.rank) : x = y := by
  obtain ⟨a⟩ := x
  obtain ⟨b⟩ := y
  have ha := a.toNat_lt
  have hb := b.toNat_lt
  simp only [rank, isNegative, ge_iff_le, UInt64.le_iff_toNat_le, decide_eq_true_eq,
    UInt64.reduceToNat] at h
  rw [Binary64.mk.injEq, ← UInt64.toNat_inj]
  split at h <;> split at h <;> omega

instance : Ord Binary64 where
  compare x y := compare x.rank y.rank

end Binary64
end Annealing
