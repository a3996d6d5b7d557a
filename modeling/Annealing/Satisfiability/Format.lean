import Annealing.Decimal.Numeral
import Annealing.Satisfiability.Basic
import Annealing.Text.Blank
import Annealing.Text.Lines
import Annealing.Text.Located

/-!
# The satisfiability format

A text holds blocks, one for each instance, which are numbered from one. A
block is opened by a line `p cnf <terms> <clauses>`. In it, a line that begins
with `v` gives the weights of all terms, and every other line is a clause:
signed term numbers, negative for negated terms, with a zero at the end. Terms
are named by their numbers and weigh as much unless weights are given. The
declared number of clauses is not binding.

A block is closed by a blank line, a comment line that begins with `c`, the
next block or the end of the text. A line that begins with `%` ends the text.
Indentation is of no account.
-/
namespace Annealing.Satisfiability

open Text

/-- What makes a text no list of blocks. -/
inductive Defect where
  | badHeader
  | badTermCount (token : List Char)
  | outsideBlock
  | badWeight (token : List Char)
  | wrongWeightCount (expected found : Nat)
  | badLiteral (token : List Char)
  | missingZero
  | literalOutOfRange (value : Int) (terms : Nat)
  | weightTooLarge
  deriving DecidableEq, Repr

/-- The text of an integer. -/
def integerText : Int → String
  | .ofNat n => n.repr
  | .negSucc n => "-" ++ (n + 1).repr

def Defect.message : Defect → String
  | .badHeader => "expected 'p cnf <terms> <clauses>'"
  | .badTermCount token => "invalid term count '" ++ String.ofList token ++ "'"
  | .outsideBlock => "data line outside of a 'p' block"
  | .badWeight token => "invalid weight '" ++ String.ofList token ++ "'"
  | .wrongWeightCount expected found =>
    "expected " ++ expected.repr ++ " weights, got " ++ found.repr
  | .badLiteral token => "invalid literal '" ++ String.ofList token ++ "'"
  | .missingZero => "clause must end with 0"
  | .literalOutOfRange value terms =>
    "literal " ++ integerText value ++ " out of range 1..=" ++ terms.repr
  | .weightTooLarge => "total term weight does not fit in 64 bits"

/-- A block while it is read. -/
structure Block where
  /-- The number of the opening line. -/
  line : Nat
  termCount : Nat
  /-- The declared number of clauses, as it is written. -/
  declared : List Char
  weights? : Option (List UInt64) := none
  clauses : Array Clause := #[]
  deriving DecidableEq, Repr

namespace Block

/-- The weights of all terms; by default a term weighs its number. -/
def weights (b : Block) : List UInt64 :=
  b.weights?.getD ((List.range b.termCount).map fun i => .ofNat (i + 1))

/-- The instance of a block, with the given id. -/
def toInstance (b : Block) (id : Nat) : Instance where
  id := .ofNat id
  terms := (b.weights.mapIdx fun i weight => ⟨(i + 1).repr, weight⟩).toArray
  clauses := b.clauses.toList

/-- Opens a block. The number of terms is not limited by the memory there is for them. A reader
that makes room for the terms at the header may end there; this one goes on. -/
def ofHeader (number : Nat) (line : List Char) : Except Defect Block :=
  match words line with
  | ['p'] :: ['c', 'n', 'f'] :: terms :: declared :: _ =>
    match Numeral.unsigned? terms with
    | some count => .ok { line := number, termCount := count.toNat, declared }
    | none => .error (.badTermCount terms)
  | _ => .error .badHeader

/-- Gives all terms of a block their weights. -/
def readWeights (b : Block) (fields : List Char) : Except Defect Block := do
  let weights ← (words fields).mapM fun token =>
    match Numeral.unsigned? token with
    | some weight => .ok weight
    | none => .error (.badWeight token)
  if weights.length = b.termCount then .ok { b with weights? := some weights }
  else .error (.wrongWeightCount b.termCount weights.length)

/-- A literal from its signed term number. -/
def readLiteral (b : Block) (value : Int) : Except Defect Literal :=
  if value = 0 ∨ b.termCount < value.natAbs then
    .error (.literalOutOfRange value b.termCount)
  else .ok ⟨value.natAbs - 1, value < 0⟩

/-- Adds a clause to a block. -/
def readClause (b : Block) (line : List Char) : Except Defect Block := do
  let values ← (words line).mapM fun token =>
    match Numeral.signed? token with
    | some value => .ok value
    | none => .error (.badLiteral token)
  if values.getLast? = some 0 then
    let clause ← values.dropLast.mapM b.readLiteral
    .ok { b with clauses := b.clauses.push clause }
  else .error .missingZero

end Block

/-- The blocks of the lines read so far. -/
structure Reading where
  closed : Array Block := #[]
  current? : Option Block := none
  deriving DecidableEq, Repr

namespace Reading

/-- Closes the current block, if there is one. Its total weight has to be a
word; if it is not, the defect is on the line that opened the block. -/
def close (r : Reading) : Except (Located Defect) Reading :=
  match r.current? with
  | none => .ok r
  | some b =>
    if (Totals.sum? b.weights).isNone then .error ⟨b.line, .weightTooLarge⟩
    else .ok { closed := r.closed.push b }

/-- Reads one line, given without blanks at its ends. -/
def feed (r : Reading) (line : List Char × Nat) : Except (Located Defect) Reading :=
  let located {α : Type} (result : Except Defect α) := result.mapError (Located.mk line.2)
  match line.1 with
  | [] | 'c' :: _ => r.close
  | 'p' :: _ => do
    let r ← r.close
    let b ← located (Block.ofHeader line.2 line.1)
    .ok { r with current? := some b }
  | _ =>
    match r.current? with
    | none => .error ⟨line.2, .outsideBlock⟩
    | some b => do
      let b ← located <| match line.1 with
        | 'v' :: fields => b.readWeights fields
        | clause => b.readClause clause
      .ok { r with current? := some b }

/-- The instances of all closed blocks. -/
def instances (r : Reading) : List Instance :=
  r.closed.toList.mapIdx fun i b => b.toInstance (i + 1)

end Reading

/-- The lines of a text up to its end mark, without blanks at their ends and
with their numbers. -/
def contentLines (text : List Char) : List (List Char × Nat) :=
  (((lines text).map trim).zipIdx 1).takeWhile fun line => line.1.head? != some '%'

/-- Reads all blocks of a text. -/
def parse (text : String) : Except (Located Defect) (List Instance) := do
  let r ← (contentLines text.toList).foldlM Reading.feed {}
  let r ← r.close
  .ok r.instances

/-- The closed blocks together with the current one. -/
def Reading.allBlocks (r : Reading) : Array Block :=
  match r.current? with
  | none => r.closed
  | some b => r.closed.push b

/-- Reads lines up to the first defect and returns all blocks that ended before
it, also one whose total weight is the defect. -/
def endedBlocks (r : Reading) : List (List Char × Nat) → Array Block
  | [] => r.allBlocks
  | line :: rest =>
    match r.feed line with
    | .ok r => endedBlocks r rest
    | .error _ =>
      match line.1 with
      | [] | 'c' :: _ | 'p' :: _ => r.allBlocks
      | _ => r.closed

/-- The header line of an instance. -/
def Instance.headerLine (i : Instance) : String :=
  "p cnf " ++ i.terms.size.repr ++ " " ++ i.clauses.length.repr

/-- The weight line of an instance. -/
def Instance.weightLine (i : Instance) : String :=
  String.intercalate " " ("v" :: i.terms.toList.map fun term => term.weight.toNat.repr)

/-- The signed term number of a literal. -/
def Literal.number (l : Literal) : Int := if l.negated then -(l.term + 1) else l.term + 1

/-- The line of a clause. -/
def Clause.format (c : Clause) : String :=
  String.intercalate " " (c.map (integerText ·.number) ++ ["0"])

/-- The result of an assignment: the id and the weight, or the word
`infeasible`, and a line for every term. -/
def formatResult (i : Instance) {n : Nat} (a : Assignment n) (feasible : Bool) : String :=
  let verdict := if feasible then a.weight.toNat.repr else "infeasible"
  let values := (i.terms.toList.zip a.values.toList).map fun (term, value) =>
    term.name ++ " => " ++ if value then "1" else "0"
  String.intercalate "\n" ((i.id.toNat.repr ++ " " ++ verdict) :: values)

end Annealing.Satisfiability
