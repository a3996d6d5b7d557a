import Annealing.Text.Lines

/-!
# Paths

A path is the text it was written as; a path of bytes that are no text is not
represented. Its components decide which paths are
the same place and in which order paths come: repeated separators, `.` inside
of a path and a separator at the end do not count, but a leading `./` does.
-/
namespace Annealing

/-- A path as it is written, with `/` between components. It is text, so there is no case for
names that are not: such a name has no difficulty, and it could only be shown with replacement
characters. -/
structure Path where
  text : String
  deriving DecidableEq, Repr, Inhabited

/-- A component of a path. -/
inductive Component where
  /-- The root of an absolute path. -/
  | root
  /-- A leading `.`. -/
  | here
  /-- A step to the parent directory. -/
  | up
  | name (text : String)
  deriving DecidableEq, Repr

namespace Component

/-- Components are ordered by kind, and names by their text. -/
def key : Component → Nat × String
  | .root => (0, "")
  | .here => (1, "")
  | .up => (2, "")
  | .name text => (3, text)

instance : Ord Component where
  compare a b := (compare a.key.1 b.key.1).then (compare a.key.2 b.key.2)

end Component

namespace Path

/-- The pieces of a path between separators, also empty ones. -/
def pieces (p : Path) : List String := (Text.fields '/' p.text.toList).map String.ofList

def isAbsolute (p : Path) : Bool := p.text.toList.head? == some '/'

/-- The component of a piece, unless the piece does not count. -/
def componentOf? : String → Option Component
  | "" => none
  | "." => none
  | ".." => some .up
  | text => some (.name text)

/-- The components of a path. -/
def components (p : Path) : List Component :=
  let inner := p.pieces.filterMap componentOf?
  if p.isAbsolute then .root :: inner
  else if p.pieces.head? = some "." then .here :: inner
  else inner

/-- Paths are ordered by their components, a shorter path before its
extensions. -/
instance : Ord Path where
  compare p q := compare p.components q.components

/-- The name that a path ends in. -/
def fileName? (p : Path) : Option String :=
  match p.components.getLast? with
  | some (.name text) => some text
  | _ => none

/-- The path of a name in a directory. -/
def join (directory : Path) (name : String) : Path :=
  if directory.text.isEmpty || directory.text.toList.getLast? == some '/' then
    ⟨directory.text ++ name⟩
  else ⟨directory.text ++ "/" ++ name⟩

end Path
end Annealing
