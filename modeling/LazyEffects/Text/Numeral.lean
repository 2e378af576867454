/-!
# Decimal numerals

* `digitsValue?` reads one or more decimal digits;
* `unsigned?` reads a number up to a limit, with or without a plus sign;
* `digits` writes a number.
-/

namespace LazyEffects.Text

/-- The value of a decimal digit. Only the ten digits of ASCII count. -/
def digitValue? (c : Char) : Option Nat :=
  if '0' ≤ c ∧ c ≤ '9' then some (c.toNat - '0'.toNat) else none

/-- Read digits behind a number `n`. -/
def digitsFrom (n : Nat) : List Char → Option Nat
  | [] => some n
  | c :: cs =>
    match digitValue? c with
    | some d => digitsFrom (10 * n + d) cs
    | none => none

/-- Read one or more digits, and nothing else. -/
def digitsValue? : List Char → Option Nat
  | [] => none
  | cs => digitsFrom 0 cs

/-- Read a number up to `limit` that may have a plus sign. -/
def unsigned? (limit : Nat) (cs : List Char) : Option Nat :=
  let digits := match cs with
    | '+' :: cs => cs
    | cs => cs
  (digitsValue? digits).filter (· ≤ limit)

/-- The decimal digits of a number. -/
def digits (n : Nat) : List Char := Nat.toDigits 10 n

end LazyEffects.Text
