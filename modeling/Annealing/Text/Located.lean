/-!
# Defects of a text

A text that cannot be read has a first defect on one of its lines, which are
counted from one.
-/
namespace Annealing.Text

/-- A defect and the number of its line. -/
structure Located (δ : Type) where
  line : Nat
  defect : δ
  deriving DecidableEq, Repr

end Annealing.Text
