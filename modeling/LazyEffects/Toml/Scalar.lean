import LazyEffects.Text.Numeral

/-!
# Scalars of TOML

Numbers, truth values and moments in time are written without quotes. Their texts end before a
blank, a comment, a comma or a closing bracket, so a scalar is read from its whole text.

* `Scalar.ofToken?` reads a scalar.
-/

namespace LazyEffects.Toml

/-- A value without parts. -/
inductive Scalar where
  | text (s : String)
  | integer (n : Int)
  | float (x : Float)
  | boolean (b : Bool)
  /-- A date, a time or both, as it is written. -/
  | moment (s : String)

namespace Scalar

/-! ### Numbers -/

/-- The digits of a text in which single underscores may stand between digits. -/
def ungrouped (isDigit : Char → Bool) : List Char → Option (List Char)
  | [] => none
  | [c] => if isDigit c then some [c] else none
  | c :: '_' :: cs => if isDigit c then (ungrouped isDigit cs).map (c :: ·) else none
  | c :: cs => if isDigit c then (ungrouped isDigit cs).map (c :: ·) else none

def isDecimalDigit (c : Char) : Bool := '0' ≤ c && c ≤ '9'

/-- The value of a digit of a base of at most 16. -/
def digitOf? (base : Nat) (c : Char) : Option Nat :=
  let value :=
    if '0' ≤ c ∧ c ≤ '9' then c.toNat - '0'.toNat
    else if 'a' ≤ c ∧ c ≤ 'f' then c.toNat - 'a'.toNat + 10
    else if 'A' ≤ c ∧ c ≤ 'F' then c.toNat - 'A'.toNat + 10
    else base
  if value < base then some value else none

/-- The number that digits of a base stand for. -/
def valueIn (base : Nat) (digits : List Char) : Nat :=
  digits.foldl (fun n c => base * n + (digitOf? base c).getD 0) 0

/-- The sign of a number and what follows it. -/
def signed : List Char → Bool × List Char
  | '+' :: cs => (false, cs)
  | '-' :: cs => (true, cs)
  | cs => (false, cs)

/-- The digits of a decimal number without sign, of which only zero begins with a zero. -/
def decimalDigits? (cs : List Char) : Option (List Char) :=
  match ungrouped isDecimalDigit cs with
  | some ('0' :: _ :: _) => none
  | digits => digits

/-- Integers have 64 bits. -/
def inRange (n : Int) : Bool :=
  let limit : Int := (1 <<< 63 : Nat)
  n < limit && -limit ≤ n

/-- Read an integer in base 16, 8 or 2, behind the mark of its base. -/
def basedInteger? (base : Nat) (cs : List Char) : Option Int :=
  match ungrouped (fun c => (digitOf? base c).isSome) cs with
  | some digits => some (valueIn base digits : Int)
  | none => none

/-- Read an integer. -/
def integer? (cs : List Char) : Option Int :=
  let n := match cs with
    | '0' :: 'x' :: cs => basedInteger? 16 cs
    | '0' :: 'o' :: cs => basedInteger? 8 cs
    | '0' :: 'b' :: cs => basedInteger? 2 cs
    | cs =>
      let (isNegative, cs) := signed cs
      (decimalDigits? cs).map fun digits =>
        if isNegative then -(valueIn 10 digits : Int) else valueIn 10 digits
  n.filter inRange

/-- The number nearest to `n * 10 ^ k`, which is infinite if it is too great. -/
def nearestFloat (n : Nat) (k : Int) : Float :=
  let top := (Text.digits n).length + k
  if n = 0 then 0
  else if 400 < top then 1 / 0
  else if top < -400 then 0
  else if 0 ≤ k then Float.ofScientific n false k.toNat
  else Float.ofScientific n true (-k).toNat

/-- The fraction behind the integral part of a number: its digits, if any, and what follows. -/
def fraction? : List Char → Option (List Char × List Char)
  | '.' :: cs =>
    let isMark (c : Char) := c == 'e' || c == 'E'
    (ungrouped isDecimalDigit (cs.takeWhile (!isMark ·))).map fun digits =>
      (digits, cs.dropWhile (!isMark ·))
  | cs => some ([], cs)

/-- The exponent at the end of a number, if any. -/
def exponent? : List Char → Option Int
  | [] => some 0
  | c :: cs =>
    if c == 'e' || c == 'E' then
      let (isNegative, cs) := signed cs
      (ungrouped isDecimalDigit cs).map fun digits =>
        if isNegative then -(valueIn 10 digits : Int) else valueIn 10 digits
    else none

/-- Read the absolute value of a number with a fraction or an exponent. -/
def magnitude? (cs : List Char) : Option Float := do
  let isWhole (c : Char) := isDecimalDigit c || c == '_'
  let whole ← decimalDigits? (cs.takeWhile isWhole)
  let rest := cs.dropWhile isWhole
  if rest.isEmpty then none
  let (fraction, rest) ← fraction? rest
  let exponent ← exponent? rest
  return nearestFloat (valueIn 10 (whole ++ fraction)) (exponent - fraction.length)

/-- Read a floating point number. One that is too great is refused, unless it is negative. -/
def float? (cs : List Char) : Option Float :=
  let (isNegative, cs) := signed cs
  match cs with
  | ['i', 'n', 'f'] => some (if isNegative then -(1 / 0) else 1 / 0)
  | ['n', 'a', 'n'] => some (0 / 0)
  | cs => (magnitude? cs).bind fun x =>
    if isNegative then some (-x) else if x.isInf then none else some x

/-! ### Dates and times -/

/-- Read two digits as a number. -/
def twoDigits? (a b : Char) : Option Nat := do
  let a ← Text.digitValue? a
  let b ← Text.digitValue? b
  return 10 * a + b

/-- The length of a month. -/
def daysIn (year month : Nat) : Nat :=
  if month = 2 then
    if year % 4 = 0 ∧ (year % 100 ≠ 0 ∨ year % 400 = 0) then 29 else 28
  else if month = 4 ∨ month = 6 ∨ month = 9 ∨ month = 11 then 30
  else 31

/-- What follows a date. -/
def afterDate? : List Char → Option (List Char)
  | a :: b :: c :: d :: '-' :: e :: f :: '-' :: g :: h :: cs => do
    let year := 100 * (← twoDigits? a b) + (← twoDigits? c d)
    let month ← twoDigits? e f
    let day ← twoDigits? g h
    if 1 ≤ month ∧ month ≤ 12 ∧ 1 ≤ day ∧ day ≤ daysIn year month then some cs else none
  | _ => none

/-- What follows a time of day. -/
def afterTime? : List Char → Option (List Char)
  | a :: b :: ':' :: c :: d :: ':' :: e :: f :: cs => do
    let hour ← twoDigits? a b
    let minute ← twoDigits? c d
    let second ← twoDigits? e f
    if 24 ≤ hour ∨ 60 ≤ minute ∨ 60 < second then none
    match cs with
    | '.' :: g :: cs => if isDecimalDigit g then some (cs.dropWhile isDecimalDigit) else none
    | cs => some cs
  | _ => none

/-- The text is empty or tells the distance to universal time. -/
def isOffset : List Char → Bool
  | [] => true
  | ['Z'] | ['z'] => true
  | [s, a, b, ':', c, d] =>
    (s == '+' || s == '-') && (twoDigits? a b).any (· < 24) && (twoDigits? c d).any (· < 60)
  | _ => false

/-- The text is a time of day with an offset, if any. -/
def isTimeWithOffset (cs : List Char) : Bool := (afterTime? cs).any isOffset

/-- The text is a date, with or without a time. -/
def isDate (cs : List Char) : Bool :=
  match afterDate? cs with
  | none => false
  | some [] => true
  | some (c :: cs) => (c == 'T' || c == 't') && isTimeWithOffset cs

/-- The text is a time of day. -/
def isTime (cs : List Char) : Bool := (afterTime? cs).any List.isEmpty

/-! ### All scalars -/

/-- Read a scalar. -/
def ofToken? (cs : List Char) : Option Scalar :=
  if cs = ['t', 'r', 'u', 'e'] then some (.boolean true)
  else if cs = ['f', 'a', 'l', 's', 'e'] then some (.boolean false)
  else if isDate cs || isTime cs then some (.moment (String.ofList cs))
  else match integer? cs with
    | some n => some (.integer n)
    | none => (float? cs).map .float

end Scalar

end LazyEffects.Toml
