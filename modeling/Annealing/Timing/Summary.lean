import Annealing.Decimal.Positional
import Annealing.Timing.Stopwatch

/-!
# Timing summaries

The summary of a stopwatch is labelled with a size. It is written as the size
and then mean, least and greatest sample in seconds.
-/
namespace Annealing.Timing

/-- The statistics of the samples of a stopwatch. -/
structure Summary where
  size : Float
  average : Duration
  minimum : Duration
  maximum : Duration

/-- The summary of a stopwatch that has samples. It fails where their mean does. -/
def Summary.of? (size : Float) (w : Stopwatch) : Except Fault (Option Summary) :=
  w.average?.map fun average? =>
    match average?, w.minimum?, w.maximum? with
    | some average, some minimum, some maximum => some { size, average, minimum, maximum }
    | _, _, _ => none

/-- A length of time in seconds: whole seconds and the rest are rounded to
binary64 numbers before they are added. -/
def seconds (d : Duration) : Float :=
  Float.ofNat (d / 1000000000) + Float.ofNat (d % 1000000000) / 1000000000.0

/-- The line of a summary. -/
def Summary.format (s : Summary) : String :=
  String.intercalate " "
    [decimalText s.size, decimalText (seconds s.average), decimalText (seconds s.minimum),
      decimalText (seconds s.maximum)]

end Annealing.Timing
