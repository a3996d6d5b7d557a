/-!
# Lines and fields

A line ends at a newline, and one carriage return directly before that
newline belongs to the ending. What follows the last newline is a line of its
own unless it is empty, and a carriage return at the very end of the text
stays in its line.
-/
namespace Annealing.Text

/-- Puts one character in front of a text that has been cut into lines. The
flag tells whether the text began with a newline. -/
def consLine (c : Char) (cut : Bool × List (List Char)) : Bool × List (List Char) :=
  if c = '\n' then (true, [] :: cut.2)
  else if c = '\r' ∧ cut.1 then (false, cut.2)
  else match cut.2 with
    | [] => (false, [[c]])
    | l :: ls => (false, (c :: l) :: ls)

/-- The lines of a text, without their endings. -/
def lines (cs : List Char) : List (List Char) :=
  (cs.foldr consLine (false, [])).2

@[simp] theorem lines_nil : lines [] = [] := rfl

@[simp] theorem lines_newline (cs : List Char) : lines ('\n' :: cs) = [] :: lines cs := by
  simp [lines, consLine]

/-- The fields of a text between occurrences of a separator: one more than
there are separators. -/
def fields (separator : Char) (cs : List Char) : List (List Char) :=
  cs.foldr
    (fun c fs =>
      if c = separator then [] :: fs
      else match fs with
        | [] => [[c]]
        | f :: fs => (c :: f) :: fs)
    [[]]

/-- What stands before a given ending, if the text has that ending. -/
def stripEnding? (ending cs : List Char) : Option (List Char) :=
  if ending.isSuffixOf cs then some (cs.take (cs.length - ending.length)) else none

end Annealing.Text
