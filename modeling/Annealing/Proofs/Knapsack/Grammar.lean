import Annealing.Proofs.Decimal.Numerals
import Annealing.Proofs.Knapsack.Reading
import Annealing.Proofs.Text.Lines
import Annealing.Proofs.Totals.Chosen

/-!
# The grammar of knapsack instances

The grammar of a line is stated on natural numbers: which numerals it consists
of, that their values are words, how many there are, and that the totals are
words. A line is read exactly if it has this form, and what is read from it
are its numbers. A text is read line by line, blank lines left out, up to the
first line that is not of this form. What is written of instances that fit is
of this form, so it is read back.
-/
namespace Annealing.Knapsack

open Text

/-- Natural numbers, two and two; a number left over is ignored. -/
def pairs : List Nat → List (Nat × Nat)
  | weight :: price :: rest => (weight, price) :: pairs rest
  | _ => []

/-- The weights and prices of all items, in order. -/
def Instance.pairs (i : Instance) : List (Nat × Nat) :=
  i.items.toList.map fun item => (item.weight.toNat, item.price.toNat)

/-- The totals of weights and prices are words. -/
def TotalsFit (items : List (Nat × Nat)) : Prop :=
  (items.map Prod.fst).sum < UInt64.size ∧ (items.map Prod.snd).sum < UInt64.size

instance (items : List (Nat × Nat)) : Decidable (TotalsFit items) :=
  inferInstanceAs (Decidable (_ ∧ _))

/-- A line of numerals: an id, a number of items, a capacity, and for every item a weight
and a price. All of them are words, and so are the totals. -/
structure Grammar (line : List Char) (id count capacity : Nat) (rest : List Nat) : Prop where
  numerals : List.Forall₂ Numeral.Denotes (words line) (id :: count :: capacity :: rest)
  lt_size : ∀ n ∈ id :: count :: capacity :: rest, n < UInt64.size
  length_eq : rest.length = 2 * count
  fits : TotalsFit (pairs rest)

/-! ## Lines -/

theorem numbers_eq_ok_iff {line : List Char} {ns : List UInt64} : numbers line = .ok ns ↔
    List.Forall₂ Numeral.Denotes (words line) (ns.map UInt64.toNat) := by
  rw [numbers, mapM_eq_ok_iff, List.forall₂_map_right_iff]
  apply iff_of_eq
  congr 1
  funext token n
  rw [← Numeral.unsigned?_eq_some_iff]
  cases Numeral.unsigned? token <;> simp

theorem pairs_map_toNat (ns : List UInt64) : pairs (ns.map UInt64.toNat) =
    (pairItems ns).map fun item => (item.weight.toNat, item.price.toNat) := by
  fun_induction pairItems ns with
  | case1 weight price rest ih => simp only [List.map_cons, pairs, ih]
  | case2 ns hshort =>
    match ns, hshort with
    | [], _ => rfl
    | [n], _ => rfl
    | weight :: price :: rest, hshort => exact absurd rfl (hshort weight price rest)

theorem Instance.isSome_totals?_iff {i : Instance} : i.totals?.isSome ↔ TotalsFit i.pairs := by
  have hweights : i.pairs.map Prod.fst = (i.items.toList.map Item.weight).map UInt64.toNat := by
    simp [Instance.pairs]
  have hprices : i.pairs.map Prod.snd = (i.items.toList.map Item.price).map UInt64.toNat := by
    simp [Instance.pairs]
  rw [TotalsFit, hweights, hprices, ← Totals.isSome_sum?_iff, ← Totals.isSome_sum?_iff, totals?]
  cases Totals.sum? (i.items.toList.map Item.weight) <;>
    cases Totals.sum? (i.items.toList.map Item.price) <;> simp

/-- Numbers that are words are the values of words. -/
theorem exists_map_toNat_eq {ns : List Nat} (h : ∀ n ∈ ns, n < UInt64.size) :
    ∃ ws : List UInt64, ws.map UInt64.toNat = ns := by
  refine ⟨ns.map UInt64.ofNat, ?_⟩
  rw [List.map_map]
  conv_rhs => rw [← List.map_id ns]
  apply List.map_congr_left
  intro n hn
  exact UInt64.toNat_ofNat_of_lt' (h n hn)

theorem Instance.ext_toNat {i j : Instance} (hid : i.id.toNat = j.id.toNat)
    (hcapacity : i.capacity.toNat = j.capacity.toNat) (hpairs : i.pairs = j.pairs) : i = j := by
  have hinj : Function.Injective fun item : Item => (item.weight.toNat, item.price.toNat) := by
    rintro ⟨w, p⟩ ⟨w', p'⟩ heq
    simpa [UInt64.toNat_inj] using heq
  have hitems : i.items = j.items := Array.toList_inj.mp (List.map_injective_iff.mpr hinj hpairs)
  rw [UInt64.toNat_inj] at hid hcapacity
  cases i
  cases j
  simp only [Instance.mk.injEq]
  exact ⟨hid, hcapacity, hitems⟩

theorem exists_parseLine {line : List Char} {id count capacity : Nat} {rest : List Nat}
    (h : Grammar line id count capacity rest) : ∃ i, parseLine line = .ok i ∧
      i.id.toNat = id ∧ i.capacity.toNat = capacity ∧ i.pairs = pairs rest := by
  obtain ⟨ns, hns⟩ := exists_map_toNat_eq h.lt_size
  match ns, hns with
  | wid :: wcount :: wcapacity :: wrest, hns =>
    simp only [List.map_cons, List.cons.injEq] at hns
    obtain ⟨rfl, rfl, rfl, rfl⟩ := hns
    have hpairs := pairs_map_toNat wrest
    have hfits := h.fits
    rw [hpairs] at hfits
    refine ⟨⟨wid, wcapacity, (pairItems wrest).toArray⟩, ?_, rfl, rfl, hpairs.symm⟩
    rw [parseLine, bind_eq_ok_iff]
    refine ⟨wid :: wcount :: wcapacity :: wrest, numbers_eq_ok_iff.mpr h.numerals, ?_⟩
    rw [ofNumbers_eq_ok_iff]
    refine ⟨wid, wcount, wcapacity, wrest, rfl, ?_, rfl, Instance.isSome_totals?_iff.mpr hfits⟩
    simpa using h.length_eq

theorem grammar_of_parseLine {line : List Char} {i : Instance} (h : parseLine line = .ok i) :
    ∃ count rest, Grammar line i.id.toNat count i.capacity.toNat rest ∧ i.pairs = pairs rest := by
  obtain ⟨ns, hnumbers, hns⟩ := bind_eq_ok_iff.mp h
  obtain ⟨id, count, capacity, rest, rfl, hlength, rfl, htotals⟩ := ofNumbers_eq_ok_iff.mp hns
  have hpairs := pairs_map_toNat rest
  rw [Instance.isSome_totals?_iff] at htotals
  refine ⟨count.toNat, rest.map UInt64.toNat, ⟨numbers_eq_ok_iff.mp hnumbers, ?_, ?_, ?_⟩,
    hpairs.symm⟩
  · intro n hn
    change n ∈ (id :: count :: capacity :: rest).map UInt64.toNat at hn
    obtain ⟨w, -, rfl⟩ := List.mem_map.mp hn
    exact w.toNat_lt_size
  · simpa using hlength
  · rwa [hpairs]

theorem parseLine_eq_ok_iff {line : List Char} {i : Instance} : parseLine line = .ok i ↔
    ∃ count rest, Grammar line i.id.toNat count i.capacity.toNat rest ∧ i.pairs = pairs rest := by
  refine ⟨grammar_of_parseLine, ?_⟩
  rintro ⟨count, rest, hgrammar, hpairs⟩
  obtain ⟨j, hj, hid, hcapacity, hrest⟩ := exists_parseLine hgrammar
  rwa [Instance.ext_toNat hid.symm hcapacity.symm (hpairs.trans hrest.symm)]

theorem exists_parseLine_iff {line : List Char} : (∃ i, parseLine line = .ok i) ↔
    ∃ id count capacity rest, Grammar line id count capacity rest := by
  constructor
  · rintro ⟨i, hi⟩
    obtain ⟨count, rest, hgrammar, -⟩ := grammar_of_parseLine hi
    exact ⟨_, _, _, _, hgrammar⟩
  · rintro ⟨id, count, capacity, rest, hgrammar⟩
    obtain ⟨i, hi, -⟩ := exists_parseLine hgrammar
    exact ⟨i, hi⟩

/-! ## Texts -/

theorem not_isEmpty_trim_iff {l : List Char} :
    (!(trim l).isEmpty) = true ↔ l.all isBlank = false := by
  rw [Bool.not_eq_true', ← Bool.not_eq_true, List.isEmpty_iff, trim_eq_nil_iff, Bool.not_eq_true]

theorem instanceLines_eq (text : List Char) : (instanceLines text).map Prod.fst =
    nonBlank (lines text) := by
  have hblank : (fun line : List Char × Nat => !(trim line.1).isEmpty) =
      (fun l : List Char => !l.all isBlank) ∘ Prod.fst := by
    funext line
    rw [Bool.eq_iff_iff, not_isEmpty_trim_iff]
    simp
  rw [instanceLines, hblank, ← List.filter_map, List.zipIdx_map_fst, nonBlank]

theorem parse_eq_ok_iff {text : String} {is : List Instance} : parse text = .ok is ↔
    List.Forall₂ (fun l i => parseLine l = .ok i) (nonBlank (lines text.toList)) is := by
  rw [parse, mapM_eq_ok_iff, ← instanceLines_eq, List.forall₂_map_left_iff]
  simp only [mapError_eq_ok_iff]

theorem parse_eq_error_iff {text : String} {e : Located Defect} : parse text = .error e ↔
    ∃ before l after, lines text.toList = before ++ l :: after ∧ l.all isBlank = false ∧
      (parseLine l).mapError (Located.mk (before.length + 1)) = .error e ∧
      ∀ m ∈ before, m.all isBlank = false → ∃ i, parseLine m = .ok i := by
  -- Lines are numbered before blank ones are left out, so the numbers count those as well.
  rw [parse, instanceLines, mapM_filter_eq_error_iff]
  constructor
  · rintro ⟨_, ⟨l, n⟩, _, hsplit, hl, herror, hbefore⟩
    obtain ⟨before, after, hlines, rfl, rfl, -⟩ := zipIdx_eq_append_cons_iff.mp hsplit
    rw [Nat.add_comm] at herror
    refine ⟨before, l, after, hlines, not_isEmpty_trim_iff.mp hl, herror, ?_⟩
    intro m hm hblank
    rw [← List.zipIdx_map_fst 1 before] at hm
    obtain ⟨⟨m, n⟩, hmem, rfl⟩ := List.mem_map.mp hm
    obtain ⟨i, hi⟩ := hbefore (m, n) hmem (not_isEmpty_trim_iff.mpr hblank)
    exact ⟨i, mapError_eq_ok_iff.mp hi⟩
  · rintro ⟨before, l, after, hlines, hl, herror, hbefore⟩
    refine ⟨_, (l, 1 + before.length), _, zipIdx_eq_append_cons_iff.mpr
      ⟨before, after, hlines, rfl, rfl, rfl⟩, not_isEmpty_trim_iff.mpr hl, ?_, ?_⟩
    · rwa [Nat.add_comm]
    · rintro ⟨m, n⟩ hm hblank
      obtain ⟨i, hi⟩ := hbefore m (List.fst_mem_of_mem_zipIdx hm) (not_isEmpty_trim_iff.mp hblank)
      exact ⟨i, mapError_eq_ok_iff.mpr hi⟩

/-! ## Writing -/

/-- The numbers of the items in the line of an instance. -/
def Instance.itemNumbers (i : Instance) : List Nat :=
  i.items.toList.flatMap fun item => [item.weight.toNat, item.price.toNat]

theorem Instance.length_itemNumbers (i : Instance) : i.itemNumbers.length = 2 * i.items.size := by
  simp [itemNumbers, List.length_flatMap, Nat.mul_comm]

theorem Instance.pairs_itemNumbers (i : Instance) : Knapsack.pairs i.itemNumbers = i.pairs := by
  rw [itemNumbers, Instance.pairs]
  induction i.items.toList with
  | nil => rfl
  | cons item items ih =>
    simp only [List.flatMap_cons, List.cons_append, List.nil_append, Knapsack.pairs, ih,
      List.map_cons]

/-- An instance can be written if the number of its items and its totals are words. The
number of items that can be held is one in any case. -/
structure Instance.Writable (i : Instance) : Prop where
  size_lt : i.items.size < UInt64.size
  fits : TotalsFit i.pairs

def Instance.tokens (i : Instance) : List (List Char) :=
  (i.id.toNat :: i.items.size :: i.capacity.toNat :: i.itemNumbers).map fun n => n.repr.toList

theorem Instance.toList_format (i : Instance) :
    i.format.toList = List.intercalate [' '] i.tokens := by
  simp only [format, tokens, itemNumbers, String.toList_intercalate, List.map_map]
  rfl

theorem Instance.isWord_of_mem_tokens {i : Instance} : ∀ w ∈ i.tokens, IsWord w := by
  intro w hw
  obtain ⟨n, -, rfl⟩ := List.mem_map.mp hw
  exact isWord_repr n

theorem Instance.words_format (i : Instance) : words i.format.toList = i.tokens := by
  rw [toList_format, words_intercalate rfl isWord_of_mem_tokens]

namespace Instance.Writable

variable {i : Instance}

theorem grammar (h : i.Writable) : Grammar i.format.toList i.id.toNat i.items.size
    i.capacity.toNat i.itemNumbers where
  numerals := by
    rw [words_format, tokens, List.forall₂_map_left_iff, List.forall₂_same]
    intro n _
    exact Numeral.natural?_eq_some_iff.mp (Numeral.natural?_repr n)
  lt_size := by
    simp only [List.forall_mem_cons, itemNumbers, List.mem_flatMap]
    refine ⟨i.id.toNat_lt_size, h.size_lt, i.capacity.toNat_lt_size, ?_⟩
    rintro n ⟨item, -, hn⟩
    simp only [List.mem_cons, List.not_mem_nil, or_false] at hn
    rcases hn with rfl | rfl
    · exact item.weight.toNat_lt_size
    · exact item.price.toNat_lt_size
  length_eq := i.length_itemNumbers
  fits := by
    rw [i.pairs_itemNumbers]
    exact h.fits

theorem parseLine_format (h : i.Writable) : parseLine i.format.toList = .ok i :=
  parseLine_eq_ok_iff.mpr ⟨_, _, h.grammar, i.pairs_itemNumbers.symm⟩

end Instance.Writable

/-- The lines of instances, in any text that has them and blank lines, are read back. -/
theorem parse_of_nonBlank {is : List Instance} {text : String} (h : ∀ i ∈ is, i.Writable)
    (hlines : nonBlank (lines text.toList) = is.map (·.format.toList)) :
    parse text = .ok is := by
  rw [parse_eq_ok_iff, hlines, List.forall₂_map_left_iff, List.forall₂_same]
  intro i hi
  exact (h i hi).parseLine_format

theorem nonBlank_lines_unlines {is : List Instance} {ls : List String}
    (hblank : ∀ l ∈ ls, l.toList.all isBlank = true → IsLine l.toList)
    (hls : ls.filter (fun l => !l.toList.all isBlank) = is.map Instance.format) :
    nonBlank (lines (unlines ls).toList) = is.map (·.format.toList) := by
  have hlines : ∀ l ∈ ls, IsLine l.toList := by
    intro l hl
    by_cases hall : l.toList.all isBlank = true
    · exact hblank l hl hall
    · have hmem : l ∈ ls.filter fun l => !l.toList.all isBlank :=
        List.mem_filter.mpr ⟨hl, by simpa using hall⟩
      rw [hls] at hmem
      obtain ⟨i, -, rfl⟩ := List.mem_map.mp hmem
      rw [Instance.toList_format]
      exact isLine_intercalate Instance.isWord_of_mem_tokens
  have hmap : is.map (·.format.toList) = (is.map Instance.format).map String.toList := by
    rw [List.map_map]
    rfl
  rw [lines_unlines hlines, hmap, ← hls, nonBlank, List.filter_map]
  rfl

/-- The reader accepts the lines of the grammar and no others, and has from each the numbers
that stand there. Of a text it has the instances of the lines that are not blank, or the
defect of the first of them that has one, with the number of that line among all lines. So
it reads back what was written of any instances, wherever blank lines stand between them. -/
theorem parse_grammar :
    (∀ line i, parseLine line = .ok i ↔ ∃ count rest,
      Grammar line i.id.toNat count i.capacity.toNat rest ∧ i.pairs = pairs rest) ∧
    (∀ line, (∃ i, parseLine line = .ok i) ↔
      ∃ id count capacity rest, Grammar line id count capacity rest) ∧
    (∀ line number, (¬ ∃ id count capacity rest, Grammar line id count capacity rest) →
      ∃ defect, (parseLine line).mapError (Located.mk number) = .error ⟨number, defect⟩) ∧
    (∀ text is, parse text = .ok is ↔
      List.Forall₂ (fun l i => parseLine l = .ok i) (nonBlank (lines text.toList)) is) ∧
    (∀ text e, parse text = .error e ↔
      ∃ before l after, lines text.toList = before ++ l :: after ∧ l.all isBlank = false ∧
        (parseLine l).mapError (Located.mk (before.length + 1)) = .error e ∧
        ∀ m ∈ before, m.all isBlank = false → ∃ i, parseLine m = .ok i) ∧
    (∀ is text, (∀ i ∈ is, i.Writable) →
      nonBlank (lines text.toList) = is.map (·.format.toList) → parse text = .ok is) ∧
    ∀ is ls, (∀ i ∈ is, i.Writable) →
      (∀ l ∈ ls, l.toList.all isBlank = true → IsLine l.toList) →
      ls.filter (fun l => !l.toList.all isBlank) = is.map Instance.format →
      parse (unlines ls) = .ok is := by
  refine ⟨fun _ _ => parseLine_eq_ok_iff, fun _ => exists_parseLine_iff, ?_,
    fun _ _ => parse_eq_ok_iff, fun _ _ => parse_eq_error_iff, fun _ _ => parse_of_nonBlank, ?_⟩
  · intro line number h
    rw [← exists_parseLine_iff] at h
    cases hline : parseLine line with
    | ok i => exact absurd ⟨i, hline⟩ h
    | error defect => exact ⟨defect, rfl⟩
  · intro is ls his hblank hls
    exact parse_of_nonBlank his (nonBlank_lines_unlines hblank hls)

/-- An instance with one item and one with none. -/
def oneAndNone : List Instance := [⟨1, 5, #[⟨2, 3⟩]⟩, ⟨2, 7, #[]⟩]

theorem parse_grammar_oneAndNone :
    (∃ defect, (parseLine "1 1 5 2".toList).mapError (Located.mk 4) = .error ⟨4, defect⟩) ∧
      (∀ i ∈ oneAndNone, i.Writable) ∧
      parse "\n1 1 5 2 3\r\n \n2 0 7" = .ok oneAndNone ∧
      parse (unlines ["1 1 5 2 3", "", "  ", "2 0 7"]) = .ok oneAndNone := by
  obtain ⟨-, -, hrefused, -, -, htext, hwritten⟩ := parse_grammar
  have hwritable : ∀ i ∈ oneAndNone, i.Writable := by
    simp only [oneAndNone, List.forall_mem_cons]
    exact ⟨⟨by decide, by decide⟩, ⟨by decide, by decide⟩, by simp⟩
  refine ⟨hrefused _ 4 ?_, hwritable, htext _ _ hwritable (by rfl),
    hwritten _ _ hwritable ?_ (by rfl)⟩
  · rw [← exists_parseLine_iff]
    rintro ⟨i, hi⟩
    cases hi
  · simp [IsLine]

end Annealing.Knapsack
