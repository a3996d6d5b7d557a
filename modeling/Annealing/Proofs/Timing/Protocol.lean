import Annealing.Failure
import Mathlib.Data.List.Chain

/-!
# The protocol of a timer

The stopwatch of a bench has two states. While no measurement runs, one can
begin, and a computation can be measured; while one runs, it can be finished.
Every other call is a misuse: the bench stays as it is, and nothing is
computed.

This says what any one call does (`Bench.serves`), for computations with
effects of any kind. So the calls of a session that succeed are known from
their order alone, and the effects of a session are those of the computations
that were measured.
-/
namespace Annealing.Timing

/-! ## Computations on a bench -/

section
variable {n : Type → Type} [Monad n] {ε α β : Type}

theorem run_throw (e : ε) (b : Bench) :
    (throw e : BenchT ε n α).run.run b = pure (.error e, b) := rfl

theorem run_pure (a : α) (b : Bench) : (pure a : BenchT ε n α).run.run b = pure (.ok a, b) := rfl

/-- A failure ends a computation and leaves the bench as it is. -/
theorem run_bind (x : BenchT ε n α) (f : α → BenchT ε n β) (b : Bench) :
    (x >>= f).run.run b = x.run.run b >>= fun r =>
      match r.1 with
      | .error e => pure (.error e, r.2)
      | .ok a => (f a).run.run r.2 := by
  rw [ExceptT.run_bind, StateT.run_bind]
  congr
  funext r
  rcases r with ⟨_ | _, _⟩
  · rfl
  · rfl

variable [LawfulMonad n]

theorem run_get (b : Bench) : (get : BenchT ε n Bench).run.run b = pure (.ok b, b) :=
  pure_bind _ _

theorem run_set (b b' : Bench) : (set b' : BenchT ε n PUnit).run.run b = pure (.ok ⟨⟩, b') :=
  pure_bind _ _

/-- What does not know of the bench leaves it as it is. -/
theorem run_liftM (body : n α) (b : Bench) :
    (liftM body : BenchT ε n α).run.run b = (fun value => (.ok value, b)) <$> body := by
  simp [liftM, monadLift, MonadLift.monadLift]

end

variable {n : Type → Type} [Monad n] {ε : Type} [Coe Misuse ε] {α : Type}

namespace Bench

/-- The bench after the beginning of a measurement. -/
def begun (b : Bench) : Bench :=
  { b with watch := { b.watch with startedAt? := some b.now }, taken := b.taken + 1 }

/-- The bench after the end of a measurement of some length. -/
def ended (b : Bench) (length : Duration) : Bench :=
  { b with watch := ⟨none, b.watch.samples.push length⟩, taken := b.taken + 1 }

section
variable (b : Bench) (length : Duration)

@[simp] theorem isRunning_begun : b.begun.watch.isRunning = true := rfl

@[simp] theorem samples_begun : b.begun.watch.samples = b.watch.samples := rfl

@[simp] theorem isRunning_ended : (b.ended length).watch.isRunning = false := rfl

@[simp] theorem samples_ended :
    (b.ended length).watch.samples = b.watch.samples.push length := rfl

end

section
variable [LawfulMonad n] {b : Bench}

theorem run_start_of_running (h : b.watch.isRunning = true) :
    (Timer.start : BenchT ε n Unit).run.run b =
      pure (.error (Coe.coe Misuse.alreadyRunning), b) := by
  simp only [Timer.start, run_bind, run_get, pure_bind, Stopwatch.start, h, if_true, run_throw]

theorem run_start_of_idle (h : b.watch.isRunning = false) :
    (Timer.start : BenchT ε n Unit).run.run b = pure (.ok (), b.begun) := by
  simp only [Timer.start, run_bind, run_get, pure_bind, Stopwatch.start, h, Bool.false_eq_true,
    if_false, run_set]
  rfl

theorem run_finish_of_idle (h : b.watch.isRunning = false) :
    (Timer.finish : BenchT ε n Duration).run.run b =
      pure (.error (Coe.coe Misuse.notRunning), b) := by
  have hnone : b.watch.startedAt? = none := by simpa [Stopwatch.isRunning] using h
  simp only [Timer.finish, run_bind, run_get, pure_bind, Stopwatch.finish, hnone, run_throw]

theorem run_finish_of_running (h : b.watch.isRunning = true) :
    ∃ length, (Timer.finish : BenchT ε n Duration).run.run b =
      pure (.ok length, b.ended length) := by
  obtain ⟨before, hbefore⟩ : ∃ before, b.watch.startedAt? = some before :=
    Option.isSome_iff_exists.mp h
  refine ⟨b.now - before, ?_⟩
  simp only [Timer.finish, run_bind, run_get, pure_bind, Stopwatch.finish, hbefore, run_set,
    run_pure]
  rfl

theorem run_measure_of_running (h : b.watch.isRunning = true) (body : n α) :
    (measure (liftM body) : BenchT ε n α).run.run b =
      pure (.error (Coe.coe Misuse.alreadyRunning), b) := by
  simp only [measure, run_bind, run_start_of_running h, pure_bind]

theorem run_measure_of_idle (h : b.watch.isRunning = false) (body : n α) :
    ∃ length, (measure (liftM body) : BenchT ε n α).run.run b =
      (fun value => (.ok value, b.begun.ended length)) <$> body := by
  obtain ⟨length, hfinish⟩ : ∃ length, (Timer.finish : BenchT ε n Duration).run.run b.begun =
      pure (.ok length, b.begun.ended length) := run_finish_of_running b.isRunning_begun
  refine ⟨length, ?_⟩
  simp only [measure, run_bind, run_start_of_idle h, pure_bind, run_liftM, hfinish, run_pure,
    map_eq_pure_bind, bind_assoc]

end

/-- What the calls of a timer do on a bench, whether a measurement runs or not. -/
structure Serves (ε : Type) [Coe Misuse ε] (n : Type → Type) [Monad n] (b : Bench) : Prop where
  start_of_idle : b.watch.isRunning = false → ∃ b',
    (Timer.start : BenchT ε n Unit).run.run b = pure (.ok (), b') ∧
      b'.watch.isRunning = true ∧ b'.watch.samples = b.watch.samples
  start_of_running : b.watch.isRunning = true →
    (Timer.start : BenchT ε n Unit).run.run b =
      pure (.error (Coe.coe Misuse.alreadyRunning), b)
  finish_of_running : b.watch.isRunning = true → ∃ length b',
    (Timer.finish : BenchT ε n Duration).run.run b = pure (.ok length, b') ∧
      b'.watch.isRunning = false ∧ b'.watch.samples = b.watch.samples.push length
  finish_of_idle : b.watch.isRunning = false →
    (Timer.finish : BenchT ε n Duration).run.run b = pure (.error (Coe.coe Misuse.notRunning), b)
  /-- A computation is made once, and its value is returned. -/
  measure_of_idle : b.watch.isRunning = false → ∀ (α : Type) (body : n α), ∃ length b',
    (measure (liftM body) : BenchT ε n α).run.run b = (fun value => (.ok value, b')) <$> body ∧
      b'.watch.isRunning = false ∧ b'.watch.samples = b.watch.samples.push length
  /-- Otherwise it is not made at all. -/
  measure_of_running : b.watch.isRunning = true → ∀ (α : Type) (body : n α),
    (measure (liftM body) : BenchT ε n α).run.run b =
      pure (.error (Coe.coe Misuse.alreadyRunning), b)

theorem serves [LawfulMonad n] (b : Bench) : b.Serves ε n where
  start_of_idle h := ⟨b.begun, run_start_of_idle h, b.isRunning_begun, b.samples_begun⟩
  start_of_running h := run_start_of_running h
  finish_of_running h := by
    obtain ⟨length, hfinish⟩ : ∃ length, (Timer.finish : BenchT ε n Duration).run.run b =
        pure (.ok length, b.ended length) := run_finish_of_running h
    exact ⟨length, b.ended length, hfinish, b.isRunning_ended length, b.samples_ended length⟩
  finish_of_idle h := run_finish_of_idle h
  measure_of_idle h α body := by
    obtain ⟨length, hmeasure⟩ : ∃ length, (measure (liftM body) : BenchT ε n α).run.run b =
        (fun value => (.ok value, b.begun.ended length)) <$> body := run_measure_of_idle h body
    exact ⟨length, b.begun.ended length, hmeasure, b.begun.isRunning_ended length,
      b.begun.samples_ended length⟩
  measure_of_running h α body := run_measure_of_running h body

end Bench

/-! ## Sessions -/

/-- A call of a timer. What is to be measured does not know of the timer. -/
inductive Call (n : Type → Type) : Type 1 where
  | start
  | finish
  | measure {α : Type} (body : n α)

namespace Call

variable (ε) in
/-- Makes a call with the stopwatch of a bench and tells whether it succeeds. -/
def attempt : Call n → StateT Bench n Bool
  | start => Except.isOk <$> (Timer.start : BenchT ε n Unit).run
  | finish => Except.isOk <$> (Timer.finish : BenchT ε n Duration).run
  | measure body => Except.isOk <$> (Timing.measure (liftM body) : BenchT ε n _).run

/-- Whether a call is in order, while a measurement is running or not. -/
def allowed (running : Bool) : Call n → Bool
  | start | measure _ => !running
  | finish => running

/-- Whether a measurement is running after a call that was in order. -/
def leaves : Call n → Bool
  | start => true
  | finish | measure _ => false

def isFinish : Call n → Bool
  | finish => true
  | start | measure _ => false

def isMeasure : Call n → Bool
  | measure _ => true
  | start | finish => false

/-- A beginning or an end, but not the two within a measurement of a computation. -/
def mark? : Call n → Option Bool
  | start => some true
  | finish => some false
  | measure _ => none

/-- The effect of a call that was in order. -/
def effect : Call n → n Unit
  | start | finish => pure ()
  | measure body => (fun _ => ()) <$> body

variable {c : Call n} {b : Bench}

section
variable [LawfulMonad n]

theorem run_attempt_of_refused (h : c.allowed b.watch.isRunning = false) :
    (c.attempt ε).run b = pure (false, b) := by
  have hserves : b.Serves ε n := b.serves
  cases c with
  | start =>
    have hrunning : b.watch.isRunning = true := by simpa [allowed] using h
    rw [attempt, StateT.run_map, hserves.start_of_running hrunning, map_pure]
    rfl
  | finish =>
    rw [attempt, StateT.run_map, hserves.finish_of_idle h, map_pure]
    rfl
  | measure body =>
    have hrunning : b.watch.isRunning = true := by simpa [allowed] using h
    rw [attempt, StateT.run_map, hserves.measure_of_running hrunning, map_pure]
    rfl

variable (ε) in
theorem run_attempt_of_allowed (h : c.allowed b.watch.isRunning = true) : ∃ b',
    (c.attempt ε).run b = (fun _ => (true, b')) <$> c.effect ∧
      b'.watch.isRunning = c.leaves ∧ b'.watch.samples.size =
        b.watch.samples.size + ((if c.isFinish then 1 else 0) + if c.isMeasure then 1 else 0) := by
  have hserves : b.Serves ε n := b.serves
  cases c with
  | start =>
    have hidle : b.watch.isRunning = false := by simpa [allowed] using h
    obtain ⟨b', hrun, hrunning, hsamples⟩ := hserves.start_of_idle hidle
    refine ⟨b', ?_, hrunning, by rw [hsamples]; rfl⟩
    rw [attempt, StateT.run_map, hrun, effect, map_pure, map_pure]
    rfl
  | finish =>
    obtain ⟨length, b', hrun, hrunning, hsamples⟩ := hserves.finish_of_running h
    refine ⟨b', ?_, hrunning, by rw [hsamples, Array.size_push]; rfl⟩
    rw [attempt, StateT.run_map, hrun, effect, map_pure, map_pure]
    rfl
  | measure body =>
    have hidle : b.watch.isRunning = false := by simpa [allowed] using h
    obtain ⟨length, b', hrun, hrunning, hsamples⟩ := hserves.measure_of_idle hidle _ body
    refine ⟨b', ?_, hrunning, by rw [hsamples, Array.size_push]; rfl⟩
    rw [attempt, StateT.run_map, hrun, effect, Functor.map_map, Functor.map_map]
    rfl

end
end Call

variable (ε) in
/-- Makes some calls, one after the other, and tells which ones succeeded. -/
def session : List (Call n) → StateT Bench n (List Bool)
  | [] => pure []
  | c :: calls => do
    let ok ← c.attempt ε
    let rest ← session calls
    pure (ok :: rest)

/-- Which calls are in order, if a measurement is running at first or not. -/
def verdicts (running : Bool) : List (Call n) → List Bool
  | [] => []
  | c :: calls =>
    c.allowed running :: verdicts (if c.allowed running then c.leaves else running) calls

/-- The calls that are in order. -/
def accepted (running : Bool) (calls : List (Call n)) : List (Call n) :=
  ((calls.zip (verdicts running calls)).filter (·.2)).map (·.1)

/-- The beginnings and ends among some calls. -/
def marks (calls : List (Call n)) : List Bool := calls.filterMap Call.mark?

section
omit [Monad n]

variable {c : Call n} {calls : List (Call n)} {running : Bool}

theorem accepted_cons_of_refused (h : c.allowed running = false) :
    accepted running (c :: calls) = accepted running calls := by
  simp [accepted, verdicts, h]

theorem accepted_cons_of_allowed (h : c.allowed running = true) :
    accepted running (c :: calls) = c :: accepted c.leaves calls := by
  simp [accepted, verdicts, h]

/-- A measurement is running after a beginning, until the end that follows it. -/
theorem getLastD_marks_cons (h : c.allowed running = true) :
    (marks (c :: calls)).getLastD running = (marks calls).getLastD c.leaves := by
  cases c with
  | start => exact List.getLastD_cons
  | finish => exact List.getLastD_cons
  | measure body =>
    obtain rfl : running = false := by simpa [Call.allowed] using h
    rfl

/-- Beginnings and ends alternate. -/
theorem isChain_marks (running : Bool) (calls : List (Call n)) :
    (running :: marks (accepted running calls)).IsChain (· ≠ ·) := by
  induction calls generalizing running with
  | nil => exact .singleton _
  | cons c calls ih =>
    cases h : c.allowed running with
    | false =>
      rw [accepted_cons_of_refused h]
      exact ih running
    | true =>
      rw [accepted_cons_of_allowed h]
      have hrest := ih c.leaves
      cases c with
      | start =>
        obtain rfl : running = false := by simpa [Call.allowed] using h
        exact .cons_cons Bool.false_ne_true hrest
      | finish =>
        obtain rfl : running = true := h
        exact .cons_cons Bool.false_ne_true.symm hrest
      | measure body =>
        obtain rfl : running = false := by simpa [Call.allowed] using h
        exact hrest

end

variable [LawfulMonad n] {b : Bench}

theorem run_session_cons (c : Call n) (calls : List (Call n)) (b : Bench) :
    (session ε (c :: calls)).run b = (c.attempt ε).run b >>= fun r =>
      (fun rest => (r.1 :: rest.1, rest.2)) <$> (session ε calls).run r.2 := by
  simp [session]

variable (ε) in
/-- The calls of a session that succeed are those that are in order, and only these have an
effect. -/
theorem run_session (calls : List (Call n)) (b : Bench) : ∃ b',
    (session ε calls).run b =
        (fun _ => (verdicts b.watch.isRunning calls, b')) <$>
          forM (accepted b.watch.isRunning calls) Call.effect ∧
      b'.watch.isRunning = (marks (accepted b.watch.isRunning calls)).getLastD b.watch.isRunning ∧
      b'.watch.samples.size = b.watch.samples.size +
        ((accepted b.watch.isRunning calls).countP Call.isFinish +
          (accepted b.watch.isRunning calls).countP Call.isMeasure) := by
  induction calls generalizing b with
  | nil => exact ⟨b, by simp [session, verdicts, accepted], rfl, rfl⟩
  | cons c calls ih =>
    cases h : c.allowed b.watch.isRunning with
    | false =>
      obtain ⟨b', hrun, hrunning, hsize⟩ := ih b
      refine ⟨b', ?_, ?_, ?_⟩
      · rw [run_session_cons, Call.run_attempt_of_refused h, pure_bind, hrun, verdicts, h,
          accepted_cons_of_refused h, Functor.map_map]
        rfl
      · rw [accepted_cons_of_refused h, hrunning]
      · rw [accepted_cons_of_refused h, hsize]
    | true =>
      obtain ⟨b₁, hrun₁, hrunning₁, hsize₁⟩ := Call.run_attempt_of_allowed ε h
      obtain ⟨b', hrun, hrunning, hsize⟩ := ih b₁
      rw [hrunning₁] at hrun hrunning hsize
      refine ⟨b', ?_, ?_, ?_⟩
      · rw [run_session_cons, hrun₁, verdicts, h, accepted_cons_of_allowed h, List.forM_cons]
        simp only [map_eq_pure_bind, bind_assoc, pure_bind, hrun, if_true]
      · rw [accepted_cons_of_allowed h, hrunning, getLastD_marks_cons h]
      · rw [accepted_cons_of_allowed h, hsize, hsize₁, List.countP_cons, List.countP_cons]
        omega

variable (ε) in
/-- On every bench, a call of a timer succeeds if it is in order; otherwise it changes nothing.
In a session with a new stopwatch, the calls that are in order succeed and have their effects, in
turn and once each. Their beginnings and ends alternate, and each end and each measured
computation among them leaves one sample. -/
theorem session_protocol (clock : Nat → Nat) (calls : List (Call n)) :
    (∀ b : Bench, b.Serves ε n) ∧ ∃ b,
      (session ε calls).run { clock } =
          (fun _ => (verdicts false calls, b)) <$> forM (accepted false calls) Call.effect ∧
        (false :: marks (accepted false calls)).IsChain (· ≠ ·) ∧
        b.watch.isRunning = (marks (accepted false calls)).getLastD false ∧
        b.watch.samples.size = (accepted false calls).countP Call.isFinish +
          (accepted false calls).countP Call.isMeasure := by
  refine ⟨fun b => b.serves, ?_⟩
  obtain ⟨b, hrun, hrunning, hsize⟩ := run_session ε calls { clock }
  refine ⟨b, hrun, isChain_marks false calls, hrunning, ?_⟩
  rw [hsize]
  exact Nat.zero_add _

/-- Computes an error of its own, and counts how often. -/
def failing : StateM Nat (Except String Nat) := do
  modify (· + 1)
  return .error "none"

/-- Calls in and out of order, two of them with a computation. -/
def sixCalls : List (Call (StateM Nat)) :=
  [.finish, .start, .start, .measure failing, .finish, .measure failing]

theorem session_protocol_sixCalls : ∃ b,
    ((session Failure sixCalls).run { clock := id }).run 0 =
        (([false, true, false, false, true, true], b), 1) ∧
      b.watch.isRunning = false ∧ b.watch.samples.size = 2 := by
  obtain ⟨-, b, hrun, -, hrunning, hsize⟩ := session_protocol Failure id sixCalls
  refine ⟨b, ?_, hrunning, hsize⟩
  rw [hrun]
  rfl

end Annealing.Timing
