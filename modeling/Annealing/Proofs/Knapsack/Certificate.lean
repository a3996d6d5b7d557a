import Annealing.Proofs.Knapsack.Reading
import Annealing.Proofs.Knapsack.Selection
import Annealing.Proofs.Search.Guarantees
import Annealing.Proofs.Solving.Entries
import Annealing.Proofs.Text.Fields

/-!
# Knapsack results as certificates

The result line of an instance proves its own claim. Its fields are the id,
the number of items, a price and one bit for every item; the selected items
weigh no more than the capacity and are worth that price, both in exact
numbers.
-/
namespace Annealing.Knapsack

open Solving Text Totals

/-- A line names a selection of an instance that is within the capacity, and its price. -/
def Instance.Certified (i : Instance) (line : String) : Prop :=
  ∃ (price : Nat) (bits : Vector Bool i.items.size),
    fields ' ' line.toList =
      (i.id.toNat.repr :: i.items.size.repr :: price.repr :: bits.toList.map bitField).map
        String.toList ∧
      chosen i.weight bits ≤ i.capacity.toNat ∧ chosen i.price bits = price

variable {i : Instance} {s : Selection i.items.size}

theorem fields_formatResult :
    fields ' ' (formatResult i s).toList =
      (i.id.toNat.repr :: i.items.size.repr :: s.price.toNat.repr ::
        s.bits.toList.map bitField).map String.toList := by
  apply fields_intercalate rfl (List.cons_ne_nil _ _)
  intro text htext
  have hrepr : ∀ n : Nat, ' ' ∉ n.repr.toList := not_mem_repr rfl
  simp only [List.mem_cons, List.mem_map] at htext
  rcases htext with rfl | rfl | rfl | ⟨selected, -, rfl⟩
  · exact hrepr _
  · exact hrepr _
  · exact hrepr _
  · cases selected <;> decide

theorem Instance.certified_formatResult (h : s.Faithful i) (hs : i.fits s = true) :
    i.Certified (formatResult i s) :=
  ⟨s.price.toNat, s.bits, fields_formatResult, (i.fits_iff h).mp hs, h.price.symm⟩

/-- The best state of a search is faithful and within the capacity. -/
theorem Instance.found {t : Tape} {events : List (Event (Selection i.items.size))}
    {o : Outcome (Selection i.items.size)} (hi : i.totals?.isSome)
    (h : o.Found i.problem t events) : o.best.Faithful i ∧ o.feasible = true ∧ i.fits o.best := by
  have hfaithful : o.best.Faithful i :=
    h.inherit (fun _ t hs => hs.neighbor hi t) Selection.Faithful.empty
  have hstart : i.problem.feasible? (i.problem.start t).1 = some true :=
    congrArg some ((i.fits_iff .empty).mpr (by simp [Selection.empty, chosen_none]))
  have hfeasible : o.feasible = true := h.sound.feasible_iff.mpr (Or.inl hstart)
  exact ⟨hfaithful, hfeasible, Option.some.inj (h.sound.best_feasible hfeasible)⟩

theorem Instance.certified_entry {seed : UInt64} {e : Entry} (hi : i.totals?.isSome)
    (h : knapsackEntry i seed = .ok e) : i.Certified e.solution ∧ e.feasible = true := by
  obtain ⟨⟨o, log⟩, ho, rfl⟩ := map_eq_ok_iff.mp h
  obtain ⟨t, events, hfound⟩ := searchSized_found ho
  obtain ⟨hfaithful, hfeasible, hfits⟩ := Instance.found hi hfound
  exact ⟨certified_formatResult hfaithful hfits, hfeasible⟩

/-- A report on a knapsack text has a certificate for every instance, in order, and
counts none of them as infeasible. -/
theorem solveText_knapsack_certified {o : Options} {s : Surroundings} {text : String}
    {size : Float} {r : Report} (hkind : o.choice.resolve text = .knapsack)
    (h : solveText o s text size = .ok r) :
    ∃ instances, parse text = .ok instances ∧
      List.Forall₂ Instance.Certified instances r.solutions ∧ r.infeasible = 0 := by
  obtain ⟨instances, hparse, hsearches⟩ := searches_knapsack hkind h
  have hentry : ∀ i ∈ instances, ∀ word e, knapsackEntry i word = .ok e →
      i.Certified e.solution ∧ false = !e.feasible := by
    intro i hi word e he
    obtain ⟨hcertified, hfeasible⟩ := Instance.certified_entry (totals_of_parse hparse hi) he
    exact ⟨hcertified, by rw [hfeasible]; rfl⟩
  obtain ⟨hcertified, hinfeasible⟩ := solveText_forall₂ (P := fun _ => false) hsearches h hentry
  rw [List.countP_false] at hinfeasible
  exact ⟨instances, hparse, hcertified, hinfeasible⟩

/-- Three items of which no more than two fit at once. -/
def threeItems : Instance := ⟨1, 5, #[⟨2, 3⟩, ⟨3, 4⟩, ⟨4, 5⟩]⟩

theorem solveText_knapsack_certified_threeItems :
    ∃ r, solveText { seed? := some 7 } {} "1 3 5 2 3 3 4 4 5" 0.0 = .ok r ∧
      List.Forall₂ Instance.Certified [threeItems] r.solutions ∧ r.infeasible = 0 := by
  have hkind : Choice.resolve .auto "1 3 5 2 3 3 4 4 5" = .knapsack := by decide
  have hparse : parse "1 3 5 2 3 3 4 4 5" = .ok [threeItems] := by rfl
  have hsearches : searches { seed? := some 7 } {} "1 3 5 2 3 3 4 4 5" =
      .ok [Thunk.mk fun _ => knapsackEntry threeItems 7] := by
    simp only [searches, hkind, hparse]
    rfl
  have hentry : ∃ e, knapsackEntry threeItems 7 = .ok e := by
    have hvalid : (Settings.forSize threeItems.problem.size).Valid := by decide +kernel
    have hcount : (Settings.forSize threeItems.problem.size).levelCount? = some 132 := by
      decide +kernel
    obtain ⟨result, hresult⟩ := exists_searchSized hvalid hcount (fun _ => rfl) 7
    exact ⟨_, map_eq_ok_iff.mpr ⟨result, hresult, rfl⟩⟩
  have hruns : ∀ run ∈ [Thunk.mk fun _ => knapsackEntry threeItems 7], ∃ e, run.get = .ok e := by
    intro run hrun
    rw [List.mem_singleton.mp hrun]
    exact hentry
  obtain ⟨r, hr⟩ := exists_solveText rfl hsearches hruns 0.0
  obtain ⟨instances, hinstances, hcertified⟩ := solveText_knapsack_certified hkind hr
  cases hparse.symm.trans hinstances
  exact ⟨r, hr, hcertified⟩

end Annealing.Knapsack
