import Annealing.Decimal.Numeral
import Annealing.Files.Path

/-!
# Difficulties

The name of an instance file tells how difficult its instances are. Without
its ending the name is cut at underscores, and the first field that is a
finite real numeral is the difficulty: 40 for `knap_40.inst.dat`, 20 for
`sat_20_4.3.inst.dat`.
-/
namespace Annealing

/-- A file name without the ending of instance files. -/
def instanceStem (name : List Char) : List Char :=
  match Text.stripEnding? ".inst.dat".toList name with
  | some stem => stem
  | none => (Text.stripEnding? ".dat".toList name).getD name

/-- The difficulty told by the name of a file, which is text as every path is. -/
def Path.difficulty? (p : Path) : Option Float :=
  p.fileName?.bind fun name =>
    ((Text.fields '_' (instanceStem name.toList)).filterMap Numeral.real?).find? Float.isFinite

end Annealing
