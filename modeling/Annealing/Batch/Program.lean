import Annealing.Files.Tree

/-!
# Programs

A program is a function from its arguments to its exit code and what it
prints. A program other than the running one is started by its path. A path
with a separator leads to a file of the tree; a mere name is looked for in
some directories, of which the first that has the program is taken.

A word of a command line cannot have a NUL character and has a length of at
most 131071 bytes.
-/
namespace Annealing.Batch

/-- How a program ended. -/
structure Exit where
  code : Nat
  output : String
  deriving DecidableEq, Repr

/-- A program, by what it does with its arguments. -/
abbrev Program := List String → Exit

/-- Why a program cannot be started. -/
inductive StartError where
  | file (error : FileError)
  | nulInWord
  | wordTooLong
  deriving DecidableEq, Repr

def StartError.message : StartError → String
  | .file error => error.message
  | .nulInWord => "nul byte found in provided data"
  | .wordTooLong => "Argument list too long (os error 7)"

/-- Whether a word has a NUL character. -/
def hasNul (word : String) : Bool := word.toList.contains '\x00'

/-- A word as it stands on a command line, where a word with a NUL character is
replaced. -/
def passedWord (word : String) : String :=
  if hasNul word then "<string-with-nul>" else word

/-- The programs that can be started. -/
structure Programs where
  /-- The running program. -/
  self : Program
  /-- Other programs, by the names on the way to their files. -/
  others : List (List String × Program) := []
  /-- Where a mere name is looked for. -/
  directories : List Path := []

namespace Programs

/-- The program in the file at a path. Other files and directories cannot be
executed. -/
def atPath (ps : Programs) (tree : Tree) (path : Path) : Except FileError Program :=
  match tree.find path with
  | .error e => .error e
  | .ok (names, _) =>
    match ps.others.find? (·.1 = names) with
    | some (_, program) => .ok program
    | none => .error .permissionDenied

/-- The program with a name. If none is found, the error tells whether there was
anything else of that name. -/
def named (ps : Programs) (tree : Tree) (name : String) : Except FileError Program :=
  if name.isEmpty then .error .notFound
  else if 255 < name.utf8ByteSize then .error .nameTooLong
  else
    let attempts := ps.directories.map fun directory => ps.atPath tree (directory.join name)
    match attempts.findSome? Except.toOption with
    | some program => .ok program
    | none =>
      let denied := attempts.any fun
        | .error .permissionDenied => true
        | _ => false
      .error (if denied then .permissionDenied else .notFound)

/-- The program that a path stands for on a command line. -/
def find (ps : Programs) (tree : Tree) (path : Path) : Except FileError Program :=
  if path.pieces.length ≤ 1 then ps.named tree path.text else ps.atPath tree path

/-- Runs a program on some arguments; without a path, the running one. -/
def run (ps : Programs) (tree : Tree) (path? : Option Path) (arguments : List String) :
    Except StartError Exit :=
  if (path?.any (hasNul ·.text)) || arguments.any hasNul then .error .nulInWord
  else
    match path?.elim (.ok ps.self) (ps.find tree) with
    | .error e => .error (.file e)
    | .ok program =>
      if arguments.any (131071 < ·.utf8ByteSize) then .error .wordTooLong
      else .ok (program arguments)

end Programs
end Annealing.Batch
