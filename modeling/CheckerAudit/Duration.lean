import CheckerAudit.Numeral.Binary64

/-!
Spans of time in nanoseconds, and the three texts made of them: milliseconds, seconds as a binary
floating-point number, and seconds in the largest unit that gives a whole part. An instant is a span
since the start of a clock, as long as the clock can show it.
-/
namespace CheckerAudit

/-- Whole seconds and a part of a second. -/
structure Duration where
  seconds : Nat
  nanos : Fin 1000000000
deriving Repr, DecidableEq

namespace Duration

open Numeral

/-- A span of whole seconds. -/
def ofSeconds (seconds : Nat) : Duration :=
  ⟨seconds, ⟨0, by decide⟩⟩

/-- No time at all. -/
def zero : Duration :=
  ofSeconds 0

instance : Inhabited Duration := ⟨zero⟩

/-- A span of milliseconds. -/
def ofMillis (ms : Nat) : Duration :=
  ⟨ms / 1000, ⟨ms % 1000 * 1000000, by omega⟩⟩

/-- The length in nanoseconds. -/
def toNanos (d : Duration) : Nat :=
  d.seconds * 1000000000 + d.nanos

/-- Milliseconds, truncated. -/
def millis (d : Duration) : Nat :=
  d.seconds * 1000 + d.nanos / 1000000

theorem millis_eq (d : Duration) : d.millis = d.toNanos / 1000000 := by
  simp only [millis, toNanos]
  omega

/-- Seconds in binary floating point: both parts are rounded, then their sum. -/
def toBinary64 (d : Duration) : Binary64 :=
  .nearest ((Binary64.nearest ⟨d.seconds, 1⟩).ratio.add (Binary64.nearest ⟨d.nanos, 1000000000⟩).ratio)

/-- A whole part and the digits of a fraction of `places` places, without its last zeros. -/
def withFraction (whole fraction places : Nat) : String :=
  let digits := (withPlaces fraction places).toList.drop 2
  let kept := (digits.reverse.dropWhile (· = '0')).reverse
  if kept.isEmpty then toString whole else toString whole ++ "." ++ String.ofList kept

/-- The span in the largest unit that gives a whole part. -/
def unitText (d : Duration) : String :=
  let n : Nat := d.nanos
  if 0 < d.seconds then withFraction d.seconds n 9 ++ "s"
  else if 1000000 ≤ n then withFraction (n / 1000000) (n % 1000000) 6 ++ "ms"
  else if 1000 ≤ n then withFraction (n / 1000) (n % 1000) 3 ++ "µs"
  else toString n ++ "ns"

end Duration

/-- What a steady clock shows; its seconds are a signed 64-bit number. -/
structure Instant where
  sinceStart : Duration
  inRange : sinceStart.seconds < 9223372036854775808
deriving Repr, DecidableEq

namespace Instant

/-- The start of the clock. -/
def zero : Instant :=
  ⟨.zero, by decide⟩

instance : Inhabited Instant := ⟨zero⟩

/-- The instant that comes some time later, if the clock can show it. -/
def after? (i : Instant) (d : Duration) : Option Instant :=
  let nanos : Nat := i.sinceStart.nanos + d.nanos
  let seconds := i.sinceStart.seconds + d.seconds + nanos / 1000000000
  if h : seconds < 9223372036854775808 then
    some ⟨⟨seconds, ⟨nanos % 1000000000, Nat.mod_lt nanos (by decide)⟩⟩, h⟩
  else none

/-- The end of the clock in nanoseconds. -/
def endNanos : Nat :=
  9223372036854775808 * 1000000000

theorem after?_eq_none_iff {i : Instant} {d : Duration} :
    i.after? d = none ↔ endNanos ≤ i.sinceStart.toNanos + d.toNanos := by
  have hfirst := i.sinceStart.nanos.isLt
  have hsecond := d.nanos.isLt
  simp only [after?, dite_eq_right_iff, reduceCtorEq, imp_false, Nat.not_lt, Duration.toNanos,
    endNanos]
  omega

end Instant

end CheckerAudit
