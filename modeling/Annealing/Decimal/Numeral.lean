/-!
# Reading numerals

Unsigned numerals are ASCII digits after at most one `+`; signed ones may
have `-` instead. A real numeral has a sign, then `inf`, `infinity` or `nan`
in any case of letters, or digits with at most one point among or beside them
and an optional decimal exponent; it is read as the nearest binary64 number.
No numeral has blanks in it.
-/
namespace Annealing.Numeral

/-- The value of a text of ASCII digits; there has to be one. -/
def digits? (cs : List Char) : Option Nat :=
  if cs.isEmpty || !cs.all Char.isDigit then none
  else some (cs.foldl (fun n c => 10 * n + (c.toNat - '0'.toNat)) 0)

/-- The text after at most one leading `+`. -/
def dropPlus : List Char → List Char
  | '+' :: cs => cs
  | cs => cs

/-- A numeral without a minus sign. -/
def natural? (cs : List Char) : Option Nat := digits? (dropPlus cs)

/-- A numeral for a 64-bit word. -/
def unsigned? (cs : List Char) : Option UInt64 :=
  (natural? cs).bind fun n => if n < UInt64.size then some (.ofNat n) else none

/-- A numeral for a signed 64-bit word. -/
def signed? : List Char → Option Int
  | '-' :: cs => (digits? cs).bind fun n => if n ≤ 0x8000000000000000 then some (-n) else none
  | cs => (natural? cs).bind fun n => if n < 0x8000000000000000 then some n else none

/-- The number nearest to `digits · 10 ^ exponent`. Beyond the range of
binary64 the powers of ten are not computed. -/
def nearest (digits : Nat) (exponent : Int) : Float :=
  if digits = 0 then 0.0
  else
    let top := (Nat.toDigits 10 digits).length + exponent
    if 400 < top then 1.0 / 0.0
    else if top < -400 then 0.0
    else match exponent with
      | .ofNat e => Float.ofScientific digits false e
      | .negSucc e => Float.ofScientific digits true (e + 1)

/-- An optional decimal exponent, introduced by `e` or `E`. -/
def exponent? : List Char → Option Int
  | [] => some 0
  | c :: cs =>
    if c = 'e' ∨ c = 'E' then
      match cs with
      | '-' :: cs => (digits? cs).map fun n => -n
      | cs => (natural? cs).map fun n => n
    else none

/-- A numeral of digits, point and exponent, without a sign. -/
def magnitude? (cs : List Char) : Option Float :=
  let whole := cs.takeWhile Char.isDigit
  let rest := cs.dropWhile Char.isDigit
  let afterPoint := match rest with
    | '.' :: cs => (cs.takeWhile Char.isDigit, cs.dropWhile Char.isDigit)
    | cs => ([], cs)
  match digits? (whole ++ afterPoint.1), exponent? afterPoint.2 with
  | some digits, some exponent => some (nearest digits (exponent - afterPoint.1.length))
  | _, _ => none

/-- A real numeral without a sign: a number or the name of a special value. -/
def unsignedReal? (cs : List Char) : Option Float :=
  let name := String.ofList (cs.map Char.toLower)
  if name = "inf" ∨ name = "infinity" then some (1.0 / 0.0)
  else if name = "nan" then some (0.0 / 0.0)
  else magnitude? cs

/-- A real numeral. -/
def real? : List Char → Option Float
  | '-' :: cs => (unsignedReal? cs).map fun x => -x
  | cs => unsignedReal? (dropPlus cs)

end Annealing.Numeral
