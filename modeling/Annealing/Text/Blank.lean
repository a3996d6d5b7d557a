/-!
# Blank characters, trimming and words

A blank is a character with the Unicode property `White_Space`. The instance
formats, the comparison of results and the printed reports all read text
through the three operations below, so two texts that differ only in how
their lines are indented or spaced give the same words.
-/
namespace Annealing.Text

/-- The code points with the Unicode property `White_Space`, as ranges with
both ends included. -/
def blankRanges : List (Nat × Nat) :=
  [(0x09, 0x0D), (0x20, 0x20), (0x85, 0x85), (0xA0, 0xA0), (0x1680, 0x1680),
    (0x2000, 0x200A), (0x2028, 0x2029), (0x202F, 0x202F), (0x205F, 0x205F),
    (0x3000, 0x3000)]

/-- A character with the Unicode property `White_Space`. -/
def isBlank (c : Char) : Bool :=
  blankRanges.any fun range => range.1 ≤ c.toNat && c.toNat ≤ range.2

/-- The text from its first character that is not blank. -/
def trimStart (cs : List Char) : List Char := cs.dropWhile isBlank

/-- The text without blanks at either end. -/
def trim (cs : List Char) : List Char :=
  ((trimStart cs).reverse.dropWhile isBlank).reverse

/-- Puts one character in front of a text that has been cut into words.
The flag tells whether the text began inside its first word. -/
def consWord (c : Char) (cut : Bool × List (List Char)) : Bool × List (List Char) :=
  if isBlank c then (false, cut.2)
  else match cut with
    | (true, w :: ws) => (true, (c :: w) :: ws)
    | (_, ws) => (true, [c] :: ws)

/-- The words of a text: its longest runs of characters that are not blank. -/
def words (cs : List Char) : List (List Char) :=
  (cs.foldr consWord (false, [])).2

/-- Words joined by one space each. -/
def joinWords : List (List Char) → List Char
  | [] => []
  | [w] => w
  | w :: ws => w ++ ' ' :: joinWords ws

@[simp] theorem words_nil : words [] = [] := rfl

theorem words_cons_blank {c : Char} (h : isBlank c = true) (cs : List Char) :
    words (c :: cs) = words cs := by
  simp [words, consWord, h]

/-- A blank of the ASCII range or outside of it is found in the table. -/
example : isBlank ' ' = true ∧ isBlank '\u3000' = true ∧ isBlank '\u200b' = false := by decide

end Annealing.Text
