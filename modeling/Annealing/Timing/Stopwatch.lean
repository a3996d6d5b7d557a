/-!
# Stopwatches

A stopwatch collects the lengths of measurements. A measurement is begun and
finished with a reading of some clock, in nanoseconds. Only one measurement
runs at a time: beginning a second one, or finishing one that was not begun,
is a misuse and leaves the stopwatch as it is.

The mean of the samples divides by their number as a 32-bit word. That word is
zero at a multiple of 2 ^ 32 samples, and the division is then a fault.

`measure` runs any computation between a beginning and an end, for every kind
of timer.
-/
namespace Annealing

/-- A length of time in nanoseconds. There is no greatest one. -/
abbrev Duration := Nat

namespace Timing

/-- A fault of arithmetic. Nothing handles it: it ends the program. -/
inductive Fault where
  | divisionByZero
  deriving DecidableEq, Repr

/-- Operations of a timer in the wrong order. -/
inductive Misuse where
  | alreadyRunning
  | notRunning
  deriving DecidableEq, Repr

def Misuse.message : Misuse → String
  | .alreadyRunning => "cannot begin a measurement while the previous one is unfinished"
  | .notRunning => "cannot finish a measurement that was never begun"

/-- Computations that can begin and finish a measurement. -/
class Timer (m : Type → Type) where
  start : m Unit
  finish : m Duration

/-- Measures a computation and returns its value. If the measurement cannot
begin, the computation is not run. -/
def measure {m : Type → Type} [Monad m] [Timer m] {α : Type} (body : m α) : m α := do
  Timer.start
  let value ← body
  let _ ← Timer.finish
  pure value

end Timing

open Timing

/-- A length of time divided by a word, rounded down to a nanosecond. -/
def Duration.divide (d : Duration) (n : UInt32) : Except Fault Duration :=
  if n = 0 then .error .divisionByZero else .ok (d / n.toNat)

/-- A stopwatch: the reading at which the running measurement was begun, and
the samples, first to last. -/
structure Stopwatch where
  startedAt? : Option Nat := none
  samples : Array Duration := #[]
  deriving DecidableEq, Repr

namespace Stopwatch

def isRunning (w : Stopwatch) : Bool := w.startedAt?.isSome

/-- Begins a measurement. -/
def start (w : Stopwatch) (now : Nat) : Except Misuse Stopwatch :=
  if w.isRunning then .error .alreadyRunning else .ok { w with startedAt? := some now }

/-- Finishes the running measurement and returns its length. -/
def finish (w : Stopwatch) (now : Nat) : Except Misuse (Duration × Stopwatch) :=
  match w.startedAt? with
  | none => .error .notRunning
  | some before =>
    .ok (now - before, { startedAt? := none, samples := w.samples.push (now - before) })

/-- The mean of the samples, if there are any. Their number is taken as a 32-bit word. -/
def average? (w : Stopwatch) : Except Fault (Option Duration) :=
  if w.samples.isEmpty then .ok none
  else
    (Duration.divide (w.samples.toList.foldl (· + ·) 0) (.ofNat w.samples.size)).map some

def minimum? (w : Stopwatch) : Option Duration := w.samples.toList.min?

def maximum? (w : Stopwatch) : Option Duration := w.samples.toList.max?

end Stopwatch

namespace Timing

/-- A stopwatch on a bench with a clock. The clock is given by its readings,
of which the first ones have been taken. -/
structure Bench where
  watch : Stopwatch := {}
  clock : Nat → Nat
  taken : Nat := 0

/-- The reading that the clock shows next. -/
def Bench.now (b : Bench) : Nat := b.clock b.taken

/-- Computations on a bench that may fail and have effects of their own. -/
abbrev BenchT (ε : Type) (n : Type → Type) := ExceptT ε (StateT Bench n)

/-- The stopwatch of the bench is a timer. A misuse is reported in the error
type of the computation. -/
instance {ε : Type} {n : Type → Type} [Monad n] [Coe Misuse ε] : Timer (BenchT ε n) where
  start := do
    let b ← get
    match b.watch.start b.now with
    | .error misuse => throw (misuse : ε)
    | .ok watch => set { b with watch, taken := b.taken + 1 }
  finish := do
    let b ← get
    match b.watch.finish b.now with
    | .error misuse => throw (misuse : ε)
    | .ok (length, watch) =>
      set { b with watch, taken := b.taken + 1 }
      pure length

end Timing
end Annealing
