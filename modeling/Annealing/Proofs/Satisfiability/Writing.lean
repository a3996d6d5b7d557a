import Annealing.Proofs.Decimal.Numerals
import Annealing.Proofs.Satisfiability.Reading
import Annealing.Proofs.Text.Lines
import Annealing.Proofs.Totals.Chosen

/-!
# Written satisfiability instances

An instance is written as a block: its header, the weights of its terms unless
these are the numbers of the terms, and its clauses. Blank lines may follow.
Reading the lines of a block closes the block before it and opens one that
holds the instance. So a text of blocks is read as the instances in them.
-/
namespace Annealing.Satisfiability

open Text

/-! ## Numbers -/

theorem signed?_integerText {z : Int} (hlow : -0x8000000000000000 ≤ z)
    (hhigh : z < 0x8000000000000000) : Numeral.signed? (integerText z).toList = some z := by
  cases z with
  | ofNat n =>
    have hn : n < 0x8000000000000000 := Int.ofNat_lt.mp hhigh
    exact Numeral.signed?_repr hn
  | negSucc n =>
    have hn : n + 1 ≤ 0x8000000000000000 := by omega
    rw [integerText, String.toList_append]
    exact Numeral.signed?_minus_repr hn

/-- The text of an integer begins with a digit or a minus sign. -/
theorem exists_integerText (z : Int) :
    ∃ c cs, (integerText z).toList = c :: cs ∧ (c = '-' ∨ c.isDigit = true) := by
  cases z with
  | ofNat n =>
    obtain ⟨c, cs, hcs⟩ := List.exists_cons_of_ne_nil (isWord_repr n).1
    have hdigits := (Numeral.digits?_eq_some_iff.mp (Numeral.digits?_repr n)).2.1
    exact ⟨c, cs, hcs, .inr (hdigits c (hcs ▸ List.mem_cons_self))⟩
  | negSucc n => exact ⟨'-', (n + 1).repr.toList, String.toList_append, .inl rfl⟩

theorem isWord_integerText (z : Int) : IsWord (integerText z).toList := by
  cases z with
  | ofNat n => exact isWord_repr n
  | negSucc n =>
    obtain ⟨-, hfree⟩ := isWord_repr (n + 1)
    rw [integerText, String.toList_append]
    refine ⟨by simp, ?_⟩
    intro c hc
    obtain rfl | hc := List.mem_cons.mp (List.singleton_append ▸ hc)
    · decide
    · exact hfree c hc

namespace Literal

variable {l : Literal}

theorem natAbs_number : l.number.natAbs = l.term + 1 := by
  unfold number
  split <;> omega

theorem number_neg_iff : l.number < 0 ↔ l.negated = true := by
  unfold number
  split
  case isTrue h => simp only [h, iff_true]; omega
  case isFalse h => simp only [h, iff_false, Bool.false_eq_true]; omega

end Literal

theorem Block.readLiteral_number {b : Block} {l : Literal} (h : l.term < b.termCount) :
    b.readLiteral l.number = .ok l := by
  have hnat := l.natAbs_number
  have hneg : decide (l.number < 0) = l.negated := by
    rw [Bool.eq_iff_iff, decide_eq_true_iff, Literal.number_neg_iff]
  rw [readLiteral_eq_ok_iff]
  refine ⟨by omega, by omega, ?_⟩
  rw [hnat, Nat.add_sub_cancel, hneg]

/-! ## Lines -/

namespace Instance

variable {i : Instance}

def headerTokens (i : Instance) : List (List Char) :=
  ["p".toList, "cnf".toList, i.terms.size.repr.toList, i.clauses.length.repr.toList]

def weightTokens (i : Instance) : List (List Char) :=
  i.terms.toList.map fun term => term.weight.toNat.repr.toList

theorem toList_headerLine : i.headerLine.toList = List.intercalate [' '] i.headerTokens := by
  simp [headerLine, headerTokens, List.intercalate]

theorem toList_weightLine :
    i.weightLine.toList = List.intercalate [' '] (['v'] :: i.weightTokens) := by
  simp only [weightLine, weightTokens, String.toList_intercalate, List.map_cons, List.map_map]
  rfl

theorem isWord_of_mem_headerTokens : ∀ w ∈ i.headerTokens, IsWord w := by
  simp only [headerTokens, List.forall_mem_cons]
  exact ⟨by decide, by decide, isWord_repr _, isWord_repr _, by simp⟩

theorem isWord_of_mem_weightTokens : ∀ w ∈ i.weightTokens, IsWord w := by
  intro w hw
  obtain ⟨term, -, rfl⟩ := List.mem_map.mp hw
  exact isWord_repr _

/-- The weights stand after the first letter of their line, if there are any. -/
theorem exists_weightLine (i : Instance) :
    ∃ fields, i.weightLine.toList = 'v' :: fields ∧ words fields = i.weightTokens := by
  rw [toList_weightLine]
  cases htokens : i.weightTokens with
  | nil => exact ⟨[], rfl, rfl⟩
  | cons token tokens =>
    refine ⟨' ' :: List.intercalate [' '] (token :: tokens), ?_, ?_⟩
    · rw [List.intercalate_cons_cons]
      rfl
    · rw [words_cons_blank rfl, words_intercalate rfl]
      exact htokens ▸ isWord_of_mem_weightTokens

end Instance

namespace Clause

variable {c : Clause}

/-- The numbers of the literals of a clause, and a zero at the end. -/
def numbers (c : Clause) : List Int := c.map Literal.number ++ [0]

def tokens (c : Clause) : List (List Char) := c.numbers.map fun z => (integerText z).toList

theorem toList_format : (Clause.format c).toList = List.intercalate [' '] c.tokens := by
  simp only [format, tokens, numbers, String.toList_intercalate, List.map_append, List.map_map,
    List.map_cons, List.map_nil]
  rfl

theorem isWord_of_mem_tokens : ∀ w ∈ c.tokens, IsWord w := by
  intro w hw
  obtain ⟨z, -, rfl⟩ := List.mem_map.mp hw
  exact isWord_integerText z

/-- The line of a clause begins with a digit or a minus sign, also if the clause is empty. -/
theorem exists_format (c : Clause) :
    ∃ d ds, (Clause.format c).toList = d :: ds ∧ (d = '-' ∨ d.isDigit = true) := by
  obtain ⟨z, zs, hnumbers⟩ : ∃ z zs, c.numbers = z :: zs :=
    List.exists_cons_of_ne_nil (by simp [numbers])
  obtain ⟨d, ds, htext, hd⟩ := exists_integerText z
  rw [toList_format, tokens, hnumbers, List.map_cons, htext, List.intercalate_cons_cons_left]
  exact ⟨d, _, rfl, hd⟩

end Clause

/-- How an instance is written: with or without the weights of its terms, and how many blank
lines come after it. -/
structure Layout where
  contents : Instance
  weighted : Bool
  gap : Nat

namespace Layout

def opening (l : Layout) : List String :=
  l.contents.headerLine :: if l.weighted then [l.contents.weightLine] else []

def lines (l : Layout) : List String :=
  l.opening ++ l.contents.clauses.map Clause.format ++ List.replicate l.gap ""

/-- Terms are named by their numbers, which are signed words, literals name terms, and the
total of all weights is a word. Weights are left out only if they are the term numbers. -/
structure Readable (l : Layout) : Prop where
  named : ∀ k (h : k < l.contents.terms.size), l.contents.terms[k].name = (k + 1).repr
  size_lt : l.contents.terms.size < 0x8000000000000000
  inRange : ∀ c ∈ l.contents.clauses, ∀ literal ∈ c, literal.term < l.contents.terms.size
  fits : (l.contents.terms.toList.map fun term => term.weight.toNat).sum < UInt64.size
  unweighted : l.weighted = false →
    ∀ k (h : k < l.contents.terms.size), l.contents.terms[k].weight.toNat = k + 1

variable {l : Layout} {line : String}

theorem mem_lines (h : line ∈ l.lines) : line = l.contents.headerLine ∨
    line = l.contents.weightLine ∨ (∃ c : Clause, line = c.format) ∨ line = "" := by
  simp only [lines, opening, List.mem_append, List.mem_cons, List.mem_map, List.mem_replicate] at h
  rcases h with ((rfl | h) | ⟨c, -, rfl⟩) | ⟨-, rfl⟩
  · exact .inl rfl
  · split at h
    · exact .inr (.inl (List.mem_singleton.mp h))
    · cases h
  · exact .inr (.inr (.inl ⟨c, rfl⟩))
  · exact .inr (.inr (.inr rfl))

/-- A written line is words joined by spaces. -/
theorem exists_tokens (h : line ∈ l.lines) :
    ∃ tokens, (∀ w ∈ tokens, IsWord w) ∧ line.toList = List.intercalate [' '] tokens := by
  obtain rfl | rfl | ⟨c, rfl⟩ | rfl := mem_lines h
  · exact ⟨_, Instance.isWord_of_mem_headerTokens, Instance.toList_headerLine⟩
  · refine ⟨_, ?_, Instance.toList_weightLine⟩
    exact List.forall_mem_cons.mpr ⟨by decide, Instance.isWord_of_mem_weightTokens⟩
  · exact ⟨_, Clause.isWord_of_mem_tokens, Clause.toList_format⟩
  · exact ⟨[], by simp, rfl⟩

theorem trim_of_mem_lines (h : line ∈ l.lines) : trim line.toList = line.toList := by
  obtain ⟨tokens, htokens, hline⟩ := exists_tokens h
  rw [hline, trim_intercalate htokens]

theorem isLine_of_mem_lines (h : line ∈ l.lines) : IsLine line.toList := by
  obtain ⟨tokens, htokens, hline⟩ := exists_tokens h
  rw [hline]
  exact isLine_intercalate htokens

theorem head?_of_mem_lines (h : line ∈ l.lines) : line.toList.head? ≠ some '%' := by
  obtain rfl | rfl | ⟨c, rfl⟩ | rfl := mem_lines h
  · rw [Instance.toList_headerLine]
    simp [Instance.headerTokens]
  · rw [Instance.toList_weightLine, List.intercalate_cons_cons_left]
    simp
  · obtain ⟨d, ds, hformat, hd⟩ := c.exists_format
    rw [hformat]
    rintro heq
    cases heq
    simp at hd
  · simp

end Layout

/-! ## Reading a block -/

namespace Reading

variable {r r' : Reading} {b b' : Block} {k : Nat}

theorem feed_header {line : List Char} {cs : List Char} (hline : line = 'p' :: cs)
    (hclose : r.close = .ok r') (hb : Block.ofHeader k line = .ok b) :
    r.feed (line, k) = .ok { r' with current? := some b } := by
  subst hline
  simp only [feed, hb, hclose, Except.mapError]
  rfl

theorem feed_weights {fields : List Char} (hcurrent : r.current? = some b)
    (hread : b.readWeights fields = .ok b') :
    r.feed ('v' :: fields, k) = .ok { r with current? := some b' } := by
  simp only [feed, hcurrent, hread, Except.mapError]
  rfl

theorem feed_clause {line ds : List Char} {d : Char} (hline : line = d :: ds)
    (hd : d = '-' ∨ d.isDigit = true) (hcurrent : r.current? = some b)
    (hread : b.readClause line = .ok b') :
    r.feed (line, k) = .ok { r with current? := some b' } := by
  subst hline
  have hletter : d ≠ 'c' ∧ d ≠ 'p' ∧ d ≠ 'v' := by
    refine ⟨?_, ?_, ?_⟩ <;> rintro rfl <;> simp at hd
  unfold feed
  split
  case h_1 heq => cases heq
  case h_2 heq => exact absurd (List.cons.inj heq).1 hletter.1
  case h_3 heq => exact absurd (List.cons.inj heq).1 hletter.2.1
  case h_4 =>
    have hmatch : ∀ fields, d :: ds ≠ 'v' :: fields := fun _ heq =>
      hletter.2.2 (List.cons.inj heq).1
    simp only [hcurrent, hread, Except.mapError]
    rfl

theorem feed_blank : r.feed ([], k) = r.close := rfl

/-- There is no current block after closing. -/
theorem close_close (h : r.close = .ok r') : r'.close = .ok r' := by
  obtain ⟨hnone, rfl⟩ | ⟨b, -, -, rfl⟩ := close_eq_ok_iff.mp h
  · exact h
  · rfl

theorem instances_push (closed : Array Block) (b : Block) :
    instances { closed := closed.push b } =
      instances { closed } ++ [b.toInstance (closed.size + 1)] := by
  simp [instances, List.mapIdx_append]

theorem foldlM_blanks (hclose : r.close = .ok r') (n : Nat) :
    ∃ r₁, ((List.replicate n []).zipIdx k).foldlM feed r = .ok r₁ ∧ r₁.close = .ok r' := by
  induction n generalizing r k with
  | zero => exact ⟨r, rfl, hclose⟩
  | succ n ih =>
    obtain ⟨r₁, hfold, hr₁⟩ := ih (r := r') (k := k + 1) (close_close hclose)
    refine ⟨r₁, ?_, hr₁⟩
    rw [List.replicate_succ, List.zipIdx_cons, List.foldlM_cons, feed_blank, hclose]
    exact hfold

theorem readClause_format {c : Clause} (hrange : ∀ l ∈ c, l.term < b.termCount)
    (hcount : b.termCount < 0x8000000000000000) :
    b.readClause (Clause.format c).toList = .ok { b with clauses := b.clauses.push c } := by
  rw [Block.readClause_eq_ok_iff, Clause.toList_format,
    words_intercalate rfl Clause.isWord_of_mem_tokens]
  refine ⟨c.map Literal.number, c, ?_, ?_, rfl⟩
  · rw [Clause.tokens, List.forall₂_map_left_iff, Clause.numbers, List.forall₂_same]
    intro z hz
    apply signed?_integerText
    all_goals
      obtain hz | hz := List.mem_append.mp hz
      · obtain ⟨l, hl, rfl⟩ := List.mem_map.mp hz
        have hterm := hrange l hl
        have hnat := l.natAbs_number
        omega
      · cases List.mem_singleton.mp hz
        decide
  · rw [List.forall₂_map_left_iff, List.forall₂_same]
    intro l hl
    exact Block.readLiteral_number (hrange l hl)

theorem foldlM_clauses {clauses : List Clause} (hcurrent : r.current? = some b)
    (hrange : ∀ c ∈ clauses, ∀ l ∈ c, l.term < b.termCount)
    (hcount : b.termCount < 0x8000000000000000) :
    ((clauses.map fun c => (Clause.format c).toList).zipIdx k).foldlM feed r =
      .ok { r with current? := some { b with clauses := b.clauses ++ clauses.toArray } } := by
  -- The block has one more clause after every line, so the induction is for all blocks.
  induction clauses generalizing r b k with
  | nil =>
    obtain ⟨closed, current?⟩ := r
    cases hcurrent
    simp
    rfl
  | cons c clauses ih =>
    obtain ⟨hc, hclauses⟩ := List.forall_mem_cons.mp hrange
    obtain ⟨d, ds, hformat, hd⟩ := c.exists_format
    rw [List.map_cons, List.zipIdx_cons, List.foldlM_cons,
      feed_clause hformat hd hcurrent (readClause_format hc hcount)]
    refine (ih (b := { b with clauses := b.clauses.push c }) rfl hclauses hcount).trans ?_
    simp

end Reading

namespace Layout

variable {l : Layout} {k : Nat}

/-- The block that is read from the lines of an instance. -/
def block (l : Layout) (number : Nat) : Block where
  line := number
  termCount := l.contents.terms.size
  declared := l.contents.clauses.length.repr.toList
  weights? := if l.weighted then some (l.contents.terms.toList.map Term.weight) else none
  clauses := l.contents.clauses.toArray

theorem ofHeader_headerLine (h : l.Readable) : Block.ofHeader k l.contents.headerLine.toList =
    .ok { line := k, termCount := l.contents.terms.size,
          declared := l.contents.clauses.length.repr.toList } := by
  have hsize : (UInt64.ofNat l.contents.terms.size).toNat = l.contents.terms.size := by
    apply UInt64.toNat_ofNat_of_lt'
    have := h.size_lt
    unfold UInt64.size
    omega
  have hcount := Numeral.unsigned?_repr (.ofNat l.contents.terms.size)
  rw [hsize] at hcount
  rw [Block.ofHeader_eq_ok_iff, Instance.toList_headerLine,
    words_intercalate rfl Instance.isWord_of_mem_headerTokens]
  refine ⟨_, _, _, [], rfl, hcount, ?_⟩
  rw [hsize]

theorem readWeights_weightTokens {b : Block} {fields : List Char}
    (hfields : words fields = l.contents.weightTokens)
    (hb : b.termCount = l.contents.terms.size) : b.readWeights fields =
      .ok { b with weights? := some (l.contents.terms.toList.map Term.weight) } := by
  rw [Block.readWeights_eq_ok_iff, hfields]
  refine ⟨l.contents.terms.toList.map Term.weight, ?_, ?_, rfl⟩
  · rw [Instance.weightTokens, List.forall₂_map_left_iff, List.forall₂_map_right_iff,
      List.forall₂_same]
    intro term _
    exact Numeral.unsigned?_repr term.weight
  · rw [List.length_map, Array.length_toList, hb]

theorem weights_block (h : l.Readable) :
    (l.block k).weights = l.contents.terms.toList.map Term.weight := by
  cases hweighted : l.weighted with
  | true => simp [block, Block.weights, hweighted]
  | false =>
    simp only [block, Block.weights, hweighted]
    apply List.ext_getElem
    · simp
    · intro n hn _
      have hn : n < l.contents.terms.size := by simpa using hn
      have hnumber := h.unweighted hweighted n hn
      have hweight : UInt64.ofNat (n + 1) = l.contents.terms[n].weight := by
        rw [← hnumber, UInt64.ofNat_toNat]
      simpa using hweight

theorem toInstance_block (h : l.Readable) {id : Nat} (hid : l.contents.id.toNat = id) :
    (l.block k).toInstance id = l.contents := by
  have hterms : (l.contents.terms.toList.map Term.weight).mapIdx
      (fun n weight => (⟨(n + 1).repr, weight⟩ : Term)) = l.contents.terms.toList := by
    apply List.ext_getElem
    · simp
    · intro n _ hn
      have hname := h.named n hn
      simp [← hname]
  rw [Block.toInstance, weights_block h, hterms, ← hid, UInt64.ofNat_toNat]
  rfl

theorem sum?_weights_block (h : l.Readable) : (Totals.sum? (l.block k).weights).isSome := by
  rw [weights_block h, Totals.isSome_sum?_iff, List.map_map]
  exact h.fits

end Layout

namespace Reading

variable {r : Reading} {l : Layout} {is : List Instance} {k : Nat}

/-- Closing the current block leaves blocks of these instances. -/
def Closes (r : Reading) (is : List Instance) : Prop :=
  ∃ r', r.close = .ok r' ∧ r'.instances = is

theorem foldlM_opening (h : l.Readable) {r' : Reading} (hclose : r.close = .ok r') :
    ((l.opening.map String.toList).zipIdx k).foldlM feed r =
      .ok { r' with current? := some { l.block k with clauses := #[] } } := by
  obtain ⟨cs, hheader⟩ : ∃ cs, l.contents.headerLine.toList = 'p' :: cs :=
    ⟨_, Instance.toList_headerLine⟩
  rw [Layout.opening, List.map_cons, List.zipIdx_cons, List.foldlM_cons,
    feed_header hheader hclose (Layout.ofHeader_headerLine h)]
  cases hweighted : l.weighted with
  | false =>
    simp only [Layout.block, hweighted]
    rfl
  | true =>
    obtain ⟨fields, hline, hfields⟩ := l.contents.exists_weightLine
    let opened : Block := { l.block k with weights? := none, clauses := #[] }
    have hread : opened.readWeights fields = _ := Layout.readWeights_weightTokens hfields rfl
    simp only [Layout.block, hweighted, if_true, List.map_cons, hline, List.zipIdx_cons]
    exact congrArg (· >>= pure) (feed_weights rfl hread)

/-- Reading the lines of an instance adds it to the blocks. -/
theorem Closes.foldlM_lines (hr : r.Closes is) (h : l.Readable)
    (hid : l.contents.id.toNat = is.length + 1) :
    ∃ r', ((l.lines.map String.toList).zipIdx k).foldlM feed r = .ok r' ∧
      r'.Closes (is ++ [l.contents]) := by
  obtain ⟨r₁, hclose, rfl⟩ := hr
  -- The header closes the block before, the clauses go into the new one, and the blank lines
  -- may close it, but closing it later comes to the same.
  have hlines : l.lines.map String.toList = l.opening.map String.toList ++
      l.contents.clauses.map (fun c => (Clause.format c).toList) ++ List.replicate l.gap [] := by
    simp only [Layout.lines, List.map_append, List.map_map, List.map_replicate]
    rfl
  have hclauses : ((l.contents.clauses.map fun c => (Clause.format c).toList).zipIdx
      (k + (l.opening.map String.toList).length)).foldlM feed
        { r₁ with current? := some { l.block k with clauses := #[] } } =
      .ok { r₁ with current? := some (l.block k) } := by
    refine (foldlM_clauses rfl h.inRange h.size_lt).trans ?_
    simp [Layout.block]
  have hblock : close { r₁ with current? := some (l.block k) } =
      .ok { closed := r₁.closed.push (l.block k) } :=
    close_eq_ok_iff.mpr (.inr ⟨_, rfl, Layout.sum?_weights_block h, rfl⟩)
  obtain ⟨r₂, hblanks, hr₂⟩ := foldlM_blanks hblock l.gap
  refine ⟨r₂, ?_, _, hr₂, ?_⟩
  · rw [hlines, List.zipIdx_append, List.zipIdx_append, List.foldlM_append, List.foldlM_append,
      foldlM_opening h hclose]
    exact andThen_eq_ok_iff.mpr ⟨_, hclauses, hblanks⟩
  · have hlength : r₁.instances.length = r₁.closed.size := by simp [instances]
    rw [hlength] at hid
    rw [instances_push, Layout.toInstance_block h hid]
    rfl

/-- Layouts are read one after the other, each with the id that is next. -/
theorem Closes.foldlM_layouts {layouts : List Layout} (hr : r.Closes is)
    (h : ∀ l ∈ layouts, l.Readable)
    (hids : ∀ n (hn : n < layouts.length), layouts[n].contents.id.toNat = is.length + n + 1) :
    ∃ r', (((layouts.flatMap Layout.lines).map String.toList).zipIdx k).foldlM feed r = .ok r' ∧
      r'.Closes (is ++ layouts.map Layout.contents) := by
  induction layouts generalizing r is k with
  | nil => exact ⟨r, rfl, by simpa using hr⟩
  | cons l layouts ih =>
    obtain ⟨hl, hlayouts⟩ := List.forall_mem_cons.mp h
    obtain ⟨r₁, hlines, hr₁⟩ := hr.foldlM_lines (k := k) hl (hids 0 (by simp))
    obtain ⟨r₂, hrest, hr₂⟩ := ih (k := k + (l.lines.map String.toList).length) hr₁ hlayouts (by
      intro n hn
      have hid := hids (n + 1) (by simpa using hn)
      simp only [List.getElem_cons_succ] at hid
      simp only [hid, List.length_append, List.length_singleton]
      omega)
    refine ⟨r₂, ?_, by simpa using hr₂⟩
    rw [List.flatMap_cons, List.map_append, List.zipIdx_append, List.foldlM_append]
    exact andThen_eq_ok_iff.mpr ⟨r₁, hlines, hrest⟩

end Reading

/-! ## Reading a text -/

/-- The lines of a text that has no end mark are its contents. -/
theorem contentLines_eq {text : List Char} (h : ∀ l ∈ (lines text).map trim, l.head? ≠ some '%') :
    contentLines text = ((lines text).map trim).zipIdx 1 := by
  rw [contentLines, List.takeWhile_eq_self_iff]
  rintro ⟨l, n⟩ hl
  simpa using h l (List.fst_mem_of_mem_zipIdx hl)

section
variable {layouts : List Layout} {text : String}

theorem parse_of_trim_lines (h : ∀ l ∈ layouts, l.Readable)
    (hids : ∀ n (hn : n < layouts.length), layouts[n].contents.id.toNat = n + 1)
    (hlines : (lines text.toList).map trim = (layouts.flatMap Layout.lines).map String.toList) :
    parse text = .ok (layouts.map Layout.contents) := by
  have hcontent : contentLines text.toList =
      ((layouts.flatMap Layout.lines).map String.toList).zipIdx 1 := by
    rw [contentLines_eq, hlines]
    simp only [hlines, List.forall_mem_map, List.mem_flatMap]
    rintro line ⟨l, -, hline⟩
    exact Layout.head?_of_mem_lines hline
  have hstart : Reading.Closes {} [] := ⟨{}, rfl, rfl⟩
  obtain ⟨r₁, hfold, r₂, hclose, hr₂⟩ := hstart.foldlM_layouts (k := 1) h (by simpa using hids)
  rw [parse_eq_ok_iff, hcontent]
  exact ⟨r₁, r₂, hfold, hclose, hr₂.symm⟩

theorem trim_lines_unlines : (lines (unlines (layouts.flatMap Layout.lines)).toList).map trim =
    (layouts.flatMap Layout.lines).map String.toList := by
  have hwritten : ∀ line ∈ layouts.flatMap Layout.lines, ∃ l : Layout, line ∈ l.lines := by
    intro line hline
    obtain ⟨l, -, hline⟩ := List.mem_flatMap.mp hline
    exact ⟨l, hline⟩
  have hlines : ∀ line ∈ layouts.flatMap Layout.lines, IsLine line.toList := by
    intro line hline
    obtain ⟨l, hline⟩ := hwritten line hline
    exact Layout.isLine_of_mem_lines hline
  rw [lines_unlines hlines, List.map_map]
  apply List.map_congr_left
  intro line hline
  obtain ⟨l, hline⟩ := hwritten line hline
  exact Layout.trim_of_mem_lines hline

/-- Instances that are written as blocks are read back, from the written text and from any
other that has the same lines up to blanks at their ends. -/
theorem parse_layouts (h : ∀ l ∈ layouts, l.Readable)
    (hids : ∀ n (hn : n < layouts.length), layouts[n].contents.id.toNat = n + 1) :
    parse (unlines (layouts.flatMap Layout.lines)) = .ok (layouts.map Layout.contents) ∧
      ∀ text : String,
        (lines text.toList).map trim = (layouts.flatMap Layout.lines).map String.toList →
          parse text = .ok (layouts.map Layout.contents) :=
  ⟨parse_of_trim_lines h hids trim_lines_unlines, fun _ => parse_of_trim_lines h hids⟩

/-- A weighted block with an empty clause and a blank line after it, and a plain one. -/
def weightedAndPlain : List Layout :=
  [⟨⟨1, #[⟨"1", 7⟩, ⟨"2", 0⟩], [[⟨0, false⟩, ⟨1, true⟩], []]⟩, true, 1⟩,
    ⟨⟨2, #[⟨"1", 1⟩], [[⟨0, true⟩]]⟩, false, 0⟩]

theorem parse_layouts_weightedAndPlain :
    (∀ l ∈ weightedAndPlain, l.Readable) ∧
      parse (unlines ["p cnf 2 2", "v 7 0", "1 -2 0", "0", "", "p cnf 1 1", "-1 0"]) =
        .ok (weightedAndPlain.map Layout.contents) ∧
      parse "p cnf 2 2\r\n  v 7 0\r\n1 -2 0 \r\n0\r\n\t\r\np cnf 1 1\r\n-1 0" =
        .ok (weightedAndPlain.map Layout.contents) := by
  have hreadable : ∀ l ∈ weightedAndPlain, l.Readable := by
    simp only [weightedAndPlain, List.forall_mem_cons]
    exact ⟨⟨by decide, by decide, by decide, by decide, by simp⟩,
      ⟨by decide, by decide, by decide, by decide, by decide⟩, by simp⟩
  obtain ⟨hwritten, hread⟩ := parse_layouts hreadable (by decide)
  exact ⟨hreadable, hwritten, hread _ (by decide)⟩

end
end Annealing.Satisfiability
