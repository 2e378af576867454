/-!
# The shortest decimal that reads back

A binary floating point number stands for every real number that rounds to it. Among the decimals
of least length in that interval, the one nearest to the number itself is its text.

* `Binary.ofFloat?` takes a finite number apart into `mantissa * 2 ^ exponent`;
* `Binary.shortest` finds the digits;
* `floatText` writes them in positional notation.
-/

namespace LazyEffects.Text

/-- A positive number `mantissa * 2 ^ exponent` of a binary format, with the room around it. -/
structure Binary where
  mantissa : Nat
  exponent : Int
  /-- The next smaller number of the format is only half as far away as the next greater one. -/
  isNarrowBelow : Bool
  deriving Repr

namespace Binary

/-- The parts of the absolute value of a finite number other than zero. -/
def ofFloat? (x : Float) : Option Binary :=
  let bits : Nat := x.toBits.toNat
  let field : Nat := (bits >>> 52) % (1 <<< 11)
  let fraction : Nat := bits % (1 <<< 52)
  if field = (1 <<< 11) - 1 then none
  else if field = 0 then
    if fraction = 0 then none else some ⟨fraction, -1074, false⟩
  else some ⟨(1 <<< 52) + fraction, (field : Int) - 1075, fraction = 0 ∧ 1 < field⟩

/-- A number and the ends of the interval of those that round to it, as numerators over a common
denominator. -/
structure Interval where
  low : Nat
  value : Nat
  high : Nat
  denominator : Nat
  /-- The ends themselves round to the number. -/
  isClosed : Bool

/-- The interval of the real numbers that round to a number. -/
def interval (b : Binary) : Interval :=
  let up := 1 <<< b.exponent.toNat
  let down := 1 <<< (-b.exponent).toNat
  { low := (4 * b.mantissa - (if b.isNarrowBelow then 1 else 2)) * up
    value := 4 * b.mantissa * up
    high := (4 * b.mantissa + 2) * up
    denominator := 4 * down
    isClosed := b.mantissa % 2 = 0 }

/-- The point `n` on a grid of `unit / scale` lies in the interval. -/
def Interval.holds (i : Interval) (unit scale n : Nat) : Bool :=
  let point := n * unit * i.denominator
  if i.isClosed then i.low * scale ≤ point && point ≤ i.high * scale
  else i.low * scale < point && point < i.high * scale

/-- The point on a grid of `unit / scale` that is nearest to the number, if one of the two around
it lies in the interval. Of two that are equally near it is the greater. -/
def Interval.nearest? (i : Interval) (unit scale : Nat) : Option Nat :=
  let step := unit * i.denominator
  let below := i.value * scale / step
  let rest := i.value * scale % step
  let lower := i.holds unit scale below
  let upper := i.holds unit scale (below + 1)
  if upper && (!lower || step ≤ 2 * rest) then some (below + 1)
  else if lower then some below
  else none

/-- The least power of ten above the number: the `k` with `10 ^ (k - 1) ≤ x < 10 ^ k`. -/
def magnitude (i : Interval) : Int :=
  if i.denominator ≤ i.value then ((Nat.toDigits 10 (i.value / i.denominator)).length : Nat)
  else
    -- Below one: the zeros that follow the point before the first digit.
    let inverse := (i.denominator + i.value - 1) / i.value
    let guess := (Nat.toDigits 10 inverse).length - 1
    if i.denominator ≤ i.value * Nat.pow 10 guess then 1 - guess else -guess

/-- Digits `n` and a power of ten `k`, standing for `n * 10 ^ k`, found with at most `left` more
digits than `count`. -/
def search (i : Interval) (top : Int) : (left count : Nat) → Nat × Int
  | 0, _ => (0, 0)
  | left + 1, count =>
    let k := top - count
    match i.nearest? (Nat.pow 10 k.toNat) (Nat.pow 10 (-k).toNat) with
    | some n => (n, k)
    | none => search i top left (count + 1)

/-- The shortest decimal that reads back, as digits `n` and a power of ten `k`. -/
def shortest (b : Binary) : Nat × Int :=
  let i := b.interval
  search i (magnitude i) 18 1

end Binary

/-- `n * 10 ^ k` in positional notation. -/
def positional (n : Nat) (k : Int) : String :=
  let digits := Nat.toDigits 10 n
  if 0 ≤ k then String.ofList (digits ++ List.replicate k.toNat '0')
  else
    let places := (-k).toNat
    let padded := List.replicate (places + 1 - digits.length) '0' ++ digits
    let whole := padded.take (padded.length - places)
    let fraction := padded.drop (padded.length - places)
    let fraction := (fraction.reverse.dropWhile (· == '0')).reverse
    if fraction.isEmpty then String.ofList whole
    else String.ofList (whole ++ ['.'] ++ fraction)

/-- The text of a number: the shortest decimal that reads back, always in positional notation. -/
def floatText (x : Float) : String :=
  let isNegative := x.toBits.toNat >>> 63 = 1
  let sign := if isNegative then "-" else ""
  if x.isNaN then "NaN"
  else if x.isInf then sign ++ "inf"
  else match Binary.ofFloat? x with
    | none => sign ++ "0"
    | some b => let (n, k) := b.shortest; sign ++ positional n k

end LazyEffects.Text
