import Annealing.Knapsack.Format
import Annealing.Proofs.Attempts

/-!
# Knapsack instances that were read

Whatever the numbers of a line are, there are as many as the line declares
if an instance is read from them, and the totals of its items are words. So the
number of its items is one as well.
-/
namespace Annealing.Knapsack

variable {i : Instance}

theorem ofNumbers_eq_ok_iff {ns : List UInt64} :
    ofNumbers ns = .ok i ↔ ∃ id count capacity rest, ns = id :: count :: capacity :: rest ∧
      rest.length = 2 * count.toNat ∧ i = ⟨id, capacity, (pairItems rest).toArray⟩ ∧
      i.totals?.isSome := by
  constructor
  · intro h
    match ns, h with
    | id :: count :: capacity :: rest, h =>
      simp only [ofNumbers] at h
      split at h
      · cases h
      · rename_i hcount
        split at h
        · cases h
        · rename_i htotals
          cases h
          refine ⟨id, count, capacity, rest, rfl, by omega, rfl, ?_⟩
          simpa [Option.isSome_iff_ne_none] using htotals
  · rintro ⟨id, count, capacity, rest, rfl, hlength, rfl, htotals⟩
    have hcount : ¬ (rest.length % 2 ≠ 0 ∨ rest.length / 2 ≠ count.toNat) := by omega
    simp only [ofNumbers, if_neg hcount]
    rw [if_neg]
    simpa [Option.isSome_iff_ne_none] using htotals

/-- Two numbers make an item. -/
theorem length_pairItems : ∀ ns : List UInt64, (pairItems ns).length = ns.length / 2
  | [] => rfl
  | [_] => by simp [pairItems]
  | weight :: price :: rest => by
    simp only [pairItems, List.length_cons, length_pairItems rest]
    omega

/-- An instance that was read has as many items as a word says. -/
theorem size_items_of_parse {text : String} {instances : List Instance}
    (h : parse text = .ok instances) (hi : i ∈ instances) : i.items.size < UInt64.size := by
  obtain ⟨line, -, hline⟩ := exists_of_mem_mapM h hi
  obtain ⟨ns, -, hns⟩ := bind_eq_ok_iff.mp (mapError_eq_ok_iff.mp hline)
  obtain ⟨-, count, -, rest, -, hlength, rfl, -⟩ := ofNumbers_eq_ok_iff.mp hns
  have hcount := count.toNat_lt_size
  rw [List.size_toArray, length_pairItems]
  omega

theorem totals_of_parseLine {line : List Char} (h : parseLine line = .ok i) :
    i.totals?.isSome := by
  obtain ⟨ns, -, hns⟩ := bind_eq_ok_iff.mp h
  obtain ⟨-, -, -, -, -, -, -, htotals⟩ := ofNumbers_eq_ok_iff.mp hns
  exact htotals

theorem totals_of_parse {text : String} {instances : List Instance}
    (h : parse text = .ok instances) (hi : i ∈ instances) : i.totals?.isSome := by
  obtain ⟨line, -, hline⟩ := exists_of_mem_mapM h hi
  exact totals_of_parseLine (mapError_eq_ok_iff.mp hline)

end Annealing.Knapsack
