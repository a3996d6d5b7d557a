import Annealing.Proofs.Decimal.Values
import Annealing.Proofs.Knapsack.Reading
import Annealing.Proofs.Knapsack.Selection
import Annealing.Proofs.Search.Guarantees

/-!
# Exact prices

A search compares prices as binary64 numbers, and a price that does not fit
into 53 bits is rounded. So of two selections whose prices become the same
number the earlier one remains the best, even if the later one is worth more.
Nothing else can be overlooked.
-/
namespace Annealing.Knapsack

open Totals

/-- A selection that was accepted and is worth more than the best one is worth the same
after rounding. Then its price is above `2 ^ 53`, and the two differ by no more than the
largest unit. -/
theorem tracedSearch_prices {line : List Char} {i : Instance} (hi : parseLine line = .ok i)
    {s : Settings} {t t' : Tape} {o : Outcome (Selection i.items.size)}
    {events : List (Event (Selection i.items.size))}
    (h : tracedSearch i.problem s t = (.ok (o, events), t')) :
    o.best.price.toNat = chosen i.price o.best.bits ∧
    ∀ x ∈ acceptedStates events, x.price.toNat = chosen i.price x.bits ∧
      (o.best.price < x.price →
        x.price.toFloat = o.best.price.toFloat ∧ 2 ^ 53 < x.price.toNat ∧
          x.price.toNat ≤ o.best.price.toNat + 2 ^ 11) := by
  have hfound := found_of_tracedSearch h
  have htotals := totals_of_parseLine hi
  have hneighbor : ∀ (x : Selection i.items.size) t, x.Faithful i →
      (i.problem.neighbor x t).1.Faithful i := fun x t hx => hx.neighbor htotals t
  have hbest : o.best.Faithful i := hfound.inherit hneighbor .empty
  refine ⟨hbest.price, ?_⟩
  intro x hx
  have hfaithful : x.Faithful i := hfound.accepted_inherit hneighbor .empty x hx
  have hobjective : ¬ o.best.price.toFloat < x.price.toFloat := hfound.not_objective_gt x hx
  exact ⟨hfaithful.price, fun hlt => Magnitude.toFloat_eq_of_lt hlt hobjective⟩

/-- Both items fit, and the price of the second one is lost beside that of the first. -/
def unevenItems : Instance := ⟨1, 2, #[⟨1, 0x20000000000000⟩, ⟨1, 1⟩]⟩

def firstItem : Selection unevenItems.items.size := ⟨#v[true, false], 1, 0x20000000000000⟩

def bothItems : Selection unevenItems.items.size := ⟨#v[true, true], 2, 0x20000000000001⟩

/-- Two proposals at one level. -/
def twoProposals : Settings where
  initial := 8.0
  threshold := 4.0
  factor := 0.5
  proposals := 2

theorem parseLine_unevenItems :
    parseLine "1 2 2 1 9007199254740992 1 1".toList = .ok unevenItems := by rfl

/-- The words of the tape select the first item and then the second one. -/
theorem tracedSearch_unevenItems :
    ∃ o events t, tracedSearch unevenItems.problem twoProposals (.cyclic #[0, 0x80000000]) =
        (.ok (o, events), t) ∧
      o.best = firstItem ∧ acceptedStates events = [firstItem, bothItems] := by
  have hvalid : twoProposals.Valid := by decide +kernel
  have hcount : twoProposals.levelCount? = some 1 := by decide +kernel
  have hcost : (Selection.empty 2).merit - firstItem.merit ≤ 0.0 ∧
      firstItem.merit - bothItems.merit ≤ 0.0 := by decide +kernel
  have hbetter : (Selection.empty 2).merit < firstItem.merit ∧
      ¬ firstItem.merit < bothItems.merit := by decide +kernel
  obtain ⟨t, ht⟩ : ∃ t, t = Tape.cyclic #[0, 0x80000000] := ⟨_, rfl⟩
  obtain ⟨w, hw⟩ : ∃ w : Walk (Selection unevenItems.items.size), w =
    ⟨.empty 2, (Selection.empty 2).merit, .empty 2, (Selection.empty 2).merit, true, 0, 0, 0, t⟩ :=
    ⟨_, rfl⟩
  have hstart : Walk.start unevenItems.problem t = .ok w := by
    rw [hw]
    rfl
  obtain ⟨w₁, hw₁⟩ : ∃ w₁, w₁ = (w.stay t.advance).move firstItem firstItem.merit := ⟨_, rfl⟩
  obtain ⟨w₂, hw₂⟩ : ∃ w₂, w₂ = (w₁.stay t.advance.advance).move bothItems bothItems.merit :=
    ⟨_, rfl⟩
  have hfirst : w.propose unevenItems.problem 8.0 = .ok (w₁, true) := by
    rw [hw₁, hw, ht]
    exact Walk.propose_of_cost_le rfl rfl hcost.1
  have hsecond : w₁.propose unevenItems.problem 8.0 = .ok (w₂, true) := by
    rw [hw₂, hw₁, hw, ht]
    exact Walk.propose_of_cost_le rfl rfl hcost.2
  have hwalk : w.levels unevenItems.problem twoProposals (fun seen event => event :: seen) 1
      twoProposals.initial [] = .ok (8.0 * 0.5, w₂, [.cooled 8.0 (8.0 * 0.5),
        .accepted w₂.current w₂.objective 8.0, .accepted w₁.current w₁.objective 8.0]) := by
    simp only [Walk.levels, Walk.level, twoProposals, hfirst, hsecond, Settings.cool]
  rw [← ht]
  refine ⟨_, _, _, tracedSearch_eq_levels hvalid hcount hstart hwalk, ?_, ?_⟩
  · simp [hw₂, hw₁, hw, Walk.move, Walk.stay, hbetter]
  · simp [acceptedStates, Event.acceptedState?, hw₂, hw₁, Walk.move]

/-- So the best selection of a search need not be the most valuable one it accepted. -/
theorem exists_accepted_price_gt_unevenItems :
    ∃ o events t, parseLine "1 2 2 1 9007199254740992 1 1".toList = .ok unevenItems ∧
      twoProposals.Valid ∧
      tracedSearch unevenItems.problem twoProposals (.cyclic #[0, 0x80000000]) =
        (.ok (o, events), t) ∧
      ¬ ∀ x ∈ acceptedStates events, x.price ≤ o.best.price := by
  obtain ⟨o, events, t, hrun, hbest, haccepted⟩ := tracedSearch_unevenItems
  refine ⟨o, events, t, parseLine_unevenItems, by decide +kernel, hrun, ?_⟩
  rw [haccepted, hbest]
  decide

theorem tracedSearch_prices_unevenItems :
    ∃ o events t, tracedSearch unevenItems.problem twoProposals (.cyclic #[0, 0x80000000]) =
        (.ok (o, events), t) ∧ o.best = firstItem ∧ bothItems ∈ acceptedStates events ∧
      bothItems.price.toFloat = firstItem.price.toFloat ∧ 2 ^ 53 < bothItems.price.toNat ∧
      bothItems.price.toNat ≤ firstItem.price.toNat + 2 ^ 11 := by
  obtain ⟨o, events, t, hrun, hbest, haccepted⟩ := tracedSearch_unevenItems
  have hmem : bothItems ∈ acceptedStates events := by simp [haccepted]
  have hprices := ((tracedSearch_prices parseLine_unevenItems hrun).2 bothItems hmem).2
  rw [hbest] at hprices
  exact ⟨o, events, t, hrun, hbest, hmem, hprices (by decide)⟩

end Annealing.Knapsack
