import Annealing.Proofs.Knapsack.Rows
import Annealing.Proofs.Solving.Measuring

/-!
# Solving knapsack texts put one after the other

The seed of a search is the base seed plus the position of its instance among
all instances of the text. Nothing else goes from one search to the next. So
the instances of a text behind another one are solved as they are alone, with
a base seed that has grown by the number of instances before them.
-/
namespace Annealing.Solving

open Text

variable {o : Options} {base : UInt64} {text : String}

/-- The searches of knapsack instances, with the seeds from a base seed on. -/
def knapsackRuns (base : UInt64) (is : List Knapsack.Instance) :
    List (Thunk (Except Failure Entry)) :=
  is.mapIdx fun k i => Thunk.mk fun _ => knapsackEntry i (base + .ofNat k)

theorem knapsackRuns_append (base : UInt64) (is js : List Knapsack.Instance) :
    knapsackRuns base (is ++ js) =
      knapsackRuns base is ++ knapsackRuns (base + .ofNat is.length) js := by
  have hseed : ∀ k, base + .ofNat (k + is.length) = base + .ofNat is.length + .ofNat k := by
    intro k
    rw [Nat.add_comm, UInt64.ofNat_add, UInt64.add_assoc]
  simp only [knapsackRuns, List.mapIdx_append, hseed]

theorem exists_mapM_knapsackRuns {is : List Knapsack.Instance} (h : Knapsack.parse text = .ok is)
    (base : UInt64) : ∃ entries, (knapsackRuns base is).mapM Thunk.get = .ok entries := by
  obtain ⟨entries, hget, -⟩ := exists_entries
    (fun i hi => exists_knapsackEntry h hi) (fun k => base + .ofNat k)
  exact ⟨entries, hget⟩

theorem searches_knapsack_ok (hchoice : o.choice = .knapsack) {is : List Knapsack.Instance}
    (h : Knapsack.parse text = .ok is) (s : Surroundings) :
    searches { o with seed? := some base } s text = .ok (knapsackRuns base is) := by
  simp only [searches, Choice.resolve, hchoice, h]
  rfl

theorem solveText_knapsack_ok (hchoice : o.choice = .knapsack) (hmeasuring : o.measuring = false)
    {is : List Knapsack.Instance} {entries : List Entry} (h : Knapsack.parse text = .ok is)
    (hget : (knapsackRuns base is).mapM Thunk.get = .ok entries) (s : Surroundings)
    (size : Float) : solveText { o with seed? := some base } s text size =
      .ok ⟨entries.map Entry.solution, entries.countP (!·.feasible), none⟩ := by
  rw [solveText_unmeasured (o := { o with seed? := some base }) hmeasuring,
    searches_knapsack_ok hchoice h s]
  exact map_eq_ok_iff.mpr ⟨entries, hget, rfl⟩

theorem solveText_knapsack_error (hchoice : o.choice = .knapsack)
    {e : Located Knapsack.Defect} (h : Knapsack.parse text = .error e) (s : Surroundings)
    (size : Float) : solveText { o with seed? := some base } s text size =
      .error (.malformed e.line e.defect.message) := by
  have hs : searches { o with seed? := some base } s text =
      .error (.malformed e.line e.defect.message) := by
    simp only [searches, Choice.resolve, hchoice, h]
  rw [solveText_eq, hs]
  rfl

/-- Two knapsack texts with a newline between them have the solutions of the first text and then
those of the second, with a base seed that has grown by the number of instances in the first.
If one of the texts cannot be read, its defect is that of the whole, at its place there. -/
theorem solveText_rows (hchoice : o.choice = .knapsack) (hmeasuring : o.measuring = false)
    (base : UInt64) (a b : String) :
    (∀ is js, Knapsack.parse a = .ok is → Knapsack.parse b = .ok js → ∃ ra rb : Report,
      ∀ s size, solveText { o with seed? := some base } s a size = .ok ra ∧
        solveText { o with seed? := some (base + .ofNat is.length) } s b size = .ok rb ∧
        solveText { o with seed? := some base } s (a ++ "\n" ++ b) size =
          .ok ⟨ra.solutions ++ rb.solutions, ra.infeasible + rb.infeasible, none⟩) ∧
    (∀ e, Knapsack.parse a = .error e → ∀ s size,
      solveText { o with seed? := some base } s (a ++ "\n" ++ b) size =
        .error (.malformed e.line e.defect.message)) ∧
    ∀ is e, Knapsack.parse a = .ok is → Knapsack.parse b = .error e → ∀ s size,
      solveText { o with seed? := some base } s (a ++ "\n" ++ b) size =
        .error (.malformed (e.line + (a.toList.count '\n' + 1)) e.defect.message) := by
  refine ⟨?_, ?_, ?_⟩
  · intro is js ha hb
    have hjoined : Knapsack.parse (a ++ "\n" ++ b) = .ok (is ++ js) := by
      rw [Knapsack.parse_append_newline, ha, hb]
      rfl
    obtain ⟨as, has⟩ := exists_mapM_knapsackRuns ha base
    obtain ⟨bs, hbs⟩ := exists_mapM_knapsackRuns hb (base + .ofNat is.length)
    have hboth : (knapsackRuns base (is ++ js)).mapM Thunk.get = .ok (as ++ bs) := by
      rw [knapsackRuns_append, List.mapM_append, has, hbs]
      rfl
    refine ⟨⟨as.map Entry.solution, as.countP (!·.feasible), none⟩,
      ⟨bs.map Entry.solution, bs.countP (!·.feasible), none⟩, ?_⟩
    intro s size
    refine ⟨solveText_knapsack_ok hchoice hmeasuring ha has s size,
      solveText_knapsack_ok hchoice hmeasuring hb hbs s size, ?_⟩
    rw [solveText_knapsack_ok hchoice hmeasuring hjoined hboth, List.map_append,
      List.countP_append]
  · intro e ha
    have hjoined : Knapsack.parse (a ++ "\n" ++ b) = .error e := by
      rw [Knapsack.parse_append_newline, ha]
      rfl
    exact solveText_knapsack_error hchoice hjoined
  · intro is e ha hb
    have hjoined : Knapsack.parse (a ++ "\n" ++ b) =
        .error (e.shift (a.toList.count '\n' + 1)) := by
      rw [Knapsack.parse_append_newline, ha, hb]
      rfl
    exact solveText_knapsack_error hchoice hjoined

theorem solveText_rows_threeKnapsacks :
    (∃ ra rb : Report,
      solveText { choice := .knapsack, seed? := some 7 } {} threeKnapsacks 0.0 = .ok ra ∧
        solveText { choice := .knapsack, seed? := some 10 } {} "4 0 1" 0.0 = .ok rb ∧
        solveText { choice := .knapsack, seed? := some 7 } {} (threeKnapsacks ++ "\n" ++ "4 0 1")
            0.0 =
          .ok ⟨ra.solutions ++ rb.solutions, ra.infeasible + rb.infeasible, none⟩) ∧
      solveText { choice := .knapsack, seed? := some 7 } {} ("1 1" ++ "\n" ++ threeKnapsacks) 0.0 =
        .error (.malformed 1 "expected at least 'id item_count max_weight'") ∧
      solveText { choice := .knapsack, seed? := some 7 } {} (threeKnapsacks ++ "\n" ++ "1 1") 0.0 =
        .error (.malformed 5 "expected at least 'id item_count max_weight'") := by
  have hparse : Knapsack.parse threeKnapsacks =
      .ok [⟨1, 5, #[⟨2, 3⟩]⟩, ⟨2, 1, #[⟨2, 3⟩]⟩, ⟨3, 4, #[]⟩] := by rfl
  have hshort : Knapsack.parse "1 1" = .error ⟨1, .tooShort⟩ := by rfl
  have hrows := solveText_rows (o := { choice := .knapsack }) rfl rfl 7
  obtain ⟨ra, rb, hsolved⟩ := (hrows threeKnapsacks "4 0 1").1 _ [⟨4, 1, #[]⟩] hparse (by rfl)
  exact ⟨⟨ra, rb, hsolved {} 0.0⟩, (hrows "1 1" threeKnapsacks).2.1 _ hshort {} 0.0,
    (hrows threeKnapsacks "1 1").2.2 _ _ hparse hshort {} 0.0⟩

end Annealing.Solving
