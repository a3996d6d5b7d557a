import Annealing.Decimal.Positional

/-!
# Settings of a search

A search cools geometrically. It starts at the initial temperature, makes the
same number of proposals at every level, multiplies the temperature by the
cooling factor after each level, and is frozen at the first temperature that
is not above the threshold. Products are binary64 products, so an infinite
temperature, or one near the bottom of the number range, may be its own
successor; `levelCount?` counts the levels, or finds that the search would
never freeze.
-/
namespace Annealing

/-- The cooling schedule of a search and the seed of its tape. -/
structure Settings where
  initial : Float := 100.0
  threshold : Float := 4.0
  factor : Float := 0.99
  proposals : Nat := 100
  seed? : Option UInt64 := none

namespace Settings

/-- What makes settings unusable. -/
inductive Defect where
  | initialNotPositive
  | thresholdNotPositive
  | thresholdNotBelowInitial
  | factorOutOfRange (factor : Float)
  | noProposals

def Defect.message : Defect → String
  | .initialNotPositive => "initial_temperature must be positive"
  | .thresholdNotPositive => "min_temperature must be positive"
  | .thresholdNotBelowInitial => "min_temperature must be less than initial_temperature"
  | .factorOutOfRange factor =>
    "cooling factor must be in (0, 1), got " ++ decimalText factor
  | .noProposals => "iterations_per_temperature must be positive"

/-- The first defect of the settings, if there is one. -/
def defect? (s : Settings) : Option Defect :=
  if s.initial.isNaN || s.initial ≤ 0.0 then some .initialNotPositive
  else if s.threshold.isNaN || s.threshold ≤ 0.0 then some .thresholdNotPositive
  else if s.threshold ≥ s.initial then some .thresholdNotBelowInitial
  else if s.factor.isNaN || s.factor ≤ 0.0 || s.factor ≥ 1.0 then
    some (.factorOutOfRange s.factor)
  else if s.proposals = 0 then some .noProposals
  else none

/-- Settings without a defect. -/
def Valid (s : Settings) : Prop := s.defect? = none

instance (s : Settings) : Decidable s.Valid :=
  decidable_of_iff (s.defect?.isNone = true) Option.isNone_iff_eq_none

/-- Settings for a number of elements: five degrees and one proposal per
element, and at least twice the threshold so that a search takes place. -/
def forSize (elements : Nat) : Settings :=
  let elements := max elements 1
  let initial := 5.0 * Float.ofNat elements
  { initial := if initial < 8.0 then 8.0 else initial
    proposals := elements }

/-- An upper estimate of the number of levels, from logarithms. -/
def levelEstimate (s : Settings) : Nat :=
  let ratio := s.initial / s.threshold
  if ratio ≤ 1.0 then 0
  else (ratio.log / -s.factor.log).ceil.toUInt64.toNat + 1

/-- The temperature that follows a level. -/
def cool (s : Settings) (temperature : Float) : Float := temperature * s.factor

/-- The temperature of a level, counted from zero, and of the frozen search
after the last level. -/
def temperature (s : Settings) : Nat → Float
  | 0 => s.initial
  | k + 1 => s.cool (s.temperature k)

/-- Whether a level is followed by a smaller temperature. Of two positive numbers
the smaller one has the smaller bit pattern. -/
def Falls (s : Settings) (temperature : Float) : Prop :=
  (s.cool temperature).toBits < temperature.toBits

instance (s : Settings) (temperature : Float) : Decidable (s.Falls temperature) :=
  inferInstanceAs (Decidable (_ < _))

theorem Falls.toNat_lt {s : Settings} {temperature : Float} (h : s.Falls temperature) :
    (s.cool temperature).toBits.toNat < temperature.toBits.toNat :=
  UInt64.lt_iff_toNat_lt.mp h

/-- How often a search visits a level whose temperature does not fall before it
is given up. -/
def patience : Nat := 0x100000000

/-- Counts the levels from a given temperature downwards, and those already
passed. There is no answer if a temperature above the threshold is not
followed by a smaller one, since the search then stays there for ever. -/
def countLevels? (s : Settings) (temperature : Float) (passed : Nat) : Option Nat :=
  if temperature > s.threshold then
    if falls : s.Falls temperature then s.countLevels? (s.cool temperature) (passed + 1)
    else none
  else some passed
termination_by temperature.toBits.toNat
decreasing_by exact falls.toNat_lt

/-- The number of levels of a search, if it is ever frozen. -/
def levelCount? (s : Settings) : Option Nat := s.countLevels? s.initial 0

/-- The levels already passed are added to the others. -/
theorem countLevels?_eq_map (s : Settings) (temperature : Float) (passed : Nat) :
    s.countLevels? temperature passed = (s.countLevels? temperature 0).map (passed + ·) := by
  rw [countLevels?.eq_1 s temperature passed, countLevels?.eq_1 s temperature 0]
  by_cases above : temperature > s.threshold
  · by_cases falls : s.Falls temperature
    · rw [if_pos above, if_pos above, dif_pos falls, dif_pos falls,
        countLevels?_eq_map s (s.cool temperature) (passed + 1),
        countLevels?_eq_map s (s.cool temperature) (0 + 1)]
      cases s.countLevels? (s.cool temperature) 0 with
      | none => rfl
      | some n => simp only [Option.map_some, Option.some.injEq]; omega
    · rw [if_pos above, if_pos above, dif_neg falls, dif_neg falls]; rfl
  · rw [if_neg above, if_neg above]; rfl
termination_by temperature.toBits.toNat
decreasing_by all_goals exact falls.toNat_lt

theorem le_of_countLevels? {s : Settings} {temperature : Float} {passed count : Nat}
    (h : s.countLevels? temperature passed = some count) : passed ≤ count := by
  rw [s.countLevels?_eq_map, Option.map_eq_some_iff] at h
  obtain ⟨n, -, rfl⟩ := h
  exact Nat.le_add_right _ _

end Settings
end Annealing
