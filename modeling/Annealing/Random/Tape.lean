/-!
# Tapes of random words

All chance in the library comes from an infinite tape of 32-bit words, read
in order. A tape is produced in pages of sixteen words, and the page under
the head is kept at hand. The operations below say how many words they read;
two tapes that agree on these words give the same answers.
-/
namespace Annealing

/-- Sixteen words. -/
abbrev Page := Vector UInt32 16

/-- An infinite tape of words with a reading head. -/
structure Tape where
  page : Nat → Page
  position : Nat
  current : Page
  current_eq : current = page (position / 16)

namespace Tape

/-- A tape at its first word. -/
def ofPages (page : Nat → Page) : Tape where
  page := page
  position := 0
  current := page 0
  current_eq := rfl

/-- The tape with the given words. -/
def ofWords (word : Nat → UInt32) : Tape :=
  ofPages fun k => Vector.ofFn fun i => word (16 * k + i)

/-- The tape that repeats a list of words for ever; of no words, zeros. -/
def cyclic (ws : Array UInt32) : Tape := ofWords fun i => ws.getD (i % ws.size) 0

/-- The word at a place of the tape, wherever the head is. -/
def word (t : Tape) (i : Nat) : UInt32 := (t.page (i / 16))[i % 16]

/-- The word under the head. -/
def head (t : Tape) : UInt32 := t.current[t.position % 16]

/-- The tape with its head one word further on. -/
def advance (t : Tape) : Tape :=
  if h : (t.position + 1) % 16 = 0 then
    { page := t.page
      position := t.position + 1
      current := t.page ((t.position + 1) / 16)
      current_eq := rfl }
  else
    { t with
      position := t.position + 1
      current_eq := by rw [t.current_eq]; congr 1; omega }

/-- Reads one word. -/
def next (t : Tape) : UInt32 × Tape := (t.head, t.advance)

theorem head_eq_word (t : Tape) : t.head = t.word t.position := by
  simp only [head, word, t.current_eq]

@[simp] theorem position_advance (t : Tape) : t.advance.position = t.position + 1 := by
  unfold advance; split <;> rfl

@[simp] theorem page_advance (t : Tape) : t.advance.page = t.page := by
  unfold advance; split <;> rfl

theorem word_ofWords (word : Nat → UInt32) (i : Nat) : (ofWords word).word i = word i := by
  simp only [Tape.word, ofWords, ofPages, Vector.getElem_ofFn]
  congr 1
  omega

/-- Reads two words as one of 64 bits, the low half first. -/
def nextWide (t : Tape) : UInt64 × Tape :=
  let (low, t) := t.next
  let (high, t) := t.next
  (low.toUInt64 ||| (high.toUInt64 <<< 32), t)

/-- Reads two words as a number from the unit interval, a multiple of `2⁻⁵³`. -/
def nextUnit (t : Tape) : Float × Tape :=
  let (w, t) := t.nextWide
  ((w >>> 11).toFloat / 9007199254740992.0, t)

/-- The whole part of `w · n / 2³²`, or one more if the fraction that `finer`
adds to its remainder reaches the next whole number. -/
def scaled (n w finer : Nat) : Nat :=
  if UInt32.size ≤ w * n % UInt32.size + finer * n / UInt32.size then w * n / UInt32.size + 1
  else w * n / UInt32.size

theorem scaled_lt {n w finer : Nat} (hn : 0 < n) (hw : w < UInt32.size)
    (hf : finer < UInt32.size) : scaled n w finer < n := by
  have hwn : w * n + n ≤ UInt32.size * n := by
    rw [← Nat.succ_mul]; exact Nat.mul_le_mul_right n hw
  have hfn : finer * n / UInt32.size < n := by
    rw [Nat.div_lt_iff_lt_mul (by decide), Nat.mul_comm n]
    exact Nat.mul_lt_mul_of_pos_right hf hn
  simp only [scaled, UInt32.size] at *
  split <;> omega

/-- Reads an index below `n`. A word times `n` is a fraction of `n`, and its
whole part is the answer. Where the remainder is so large that the rounding of
the word could matter, a second word makes the fraction finer.

A generator that draws an index this way does so for `n` below 2 ^ 32 and
takes words of 64 bits from there on. Here words of 32 bits are read for every
`n`, so larger numbers of elements are drawn from in another way. -/
def nextIndex (t : Tape) (n : Nat) (hn : 0 < n) : Fin n × Tape :=
  let (w, t) := t.next
  if UInt32.size - n < w.toNat * n % UInt32.size then
    let (finer, t) := t.next
    (⟨scaled n w.toNat finer.toNat, scaled_lt hn w.toNat_lt_size finer.toNat_lt_size⟩, t)
  else (⟨scaled n w.toNat 0, scaled_lt hn w.toNat_lt_size (by decide)⟩, t)

end Tape
end Annealing
