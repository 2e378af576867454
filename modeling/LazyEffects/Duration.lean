/-!
# Spans of time and points in time

Spans are counted in whole nanoseconds and points in time in nanoseconds from an origin that is
the same for all of them.

* `Duration.text` is the short text of a span, in the largest unit in which its whole part is not
  zero: 1500 ms is `1.5s`, 5 ms is `5ms`.
-/

namespace LazyEffects

/-- A span of time. -/
structure Duration where
  nanos : Nat
  deriving DecidableEq, Repr, Inhabited

/-- A point in time, in nanoseconds from a fixed origin. -/
abbrev Instant := Int

namespace Duration

def zero : Duration := ⟨0⟩

/-- The longest span. Its seconds fill 64 bits, and so do its nanoseconds the last second. -/
def longest : Duration := ⟨18446744073709551615999999999⟩

/-- A span of whole milliseconds. -/
def ofMillis (ms : Nat) : Duration := ⟨ms * 1000000⟩

/-- The whole milliseconds in a span. -/
def millis (d : Duration) : Nat := d.nanos / 1000000

@[simp] theorem millis_ofMillis (ms : Nat) : (ofMillis ms).millis = ms := by
  simp [millis, ofMillis]

/-- The digits after a decimal point for `part` out of `10 ^ width`, without trailing zeros. -/
def fractionDigits (width part : Nat) : String :=
  let digits := (Nat.toDigits 10 (Nat.pow 10 width + part)).drop 1
  String.ofList (digits.reverse.dropWhile (· == '0')).reverse

/-- `count` units of `10 ^ width` nanoseconds, with the rest as a decimal fraction. -/
def inUnit (width : Nat) (unit : String) (nanos : Nat) : String :=
  let whole := toString (nanos / Nat.pow 10 width)
  match nanos % Nat.pow 10 width with
  | 0 => whole ++ unit
  | part => whole ++ "." ++ fractionDigits width part ++ unit

/-- The short text of a span. -/
def text (d : Duration) : String :=
  if 1000000000 ≤ d.nanos then inUnit 9 "s" d.nanos
  else if 1000000 ≤ d.nanos then inUnit 6 "ms" d.nanos
  else if 1000 ≤ d.nanos then inUnit 3 "µs" d.nanos
  else inUnit 0 "ns" d.nanos

end Duration

end LazyEffects
