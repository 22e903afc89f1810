import DeltaFeed.Decimal.Binary64

/-! Shortest decimal form of a double: the fewest digits that read back as the same double,
and of those the nearest to it.
-/

namespace DeltaFeed.Decimal

/-- The reals that round to a double, as numerators over a common denominator. -/
structure Interval where
  low : Nat
  value : Nat
  high : Nat
  den : Nat
  /-- Whether the two ends round to the double as well. -/
  closed : Bool

/-- (Interval.ofFinite m e) are the reals that round to m·2^e. -/
def Interval.ofFinite (m : Nat) (e : Int) : Interval :=
  let below := if m = Nat.pow 2 52 && Binary64.minExponent < e then 1 else 2
  { low := scaleUp (4 * m - below) e
    value := scaleUp (4 * m) e
    high := scaleUp (4 * m + 2) e
    den := scaleUp 4 (-e)
    closed := m % 2 = 0 }

def Interval.holds (interval : Interval) (num den : Nat) : Bool :=
  let x := num * interval.den
  if interval.closed then interval.low * den ≤ x && x ≤ interval.high * den
  else interval.low * den < x && x < interval.high * den

/-- (interval.distance num den) is the distance from num/den to the value, up to a factor that
only depends on den.
-/
def Interval.distance (interval : Interval) (num den : Nat) : Nat :=
  let x := num * interval.den
  let v := interval.value * den
  (x - v) + (v - x)

/-- (decimalOrder num den) is the k with 10^k ≤ num/den < 10^(k+1). -/
def decimalOrder (num den : Nat) : Int :=
  let digits (n : Nat) : Int := (Nat.toDigits 10 n).length
  let guess := digits num - digits den
  if den * Nat.pow 10 guess.toNat ≤ num * Nat.pow 10 (-guess).toNat then guess else guess - 1

/-- (gridPoint? interval unit) is the point of the grid of multiples of 10^unit that lies in the
interval, the one nearer to the value if both neighbours of the value do.
-/
def gridPoint? (interval : Interval) (unit : Int) : Option Nat :=
  let up := Nat.pow 10 unit.toNat
  let down := Nat.pow 10 (-unit).toNat
  let floor := interval.value * down / (interval.den * up)
  let holds n := interval.holds (n * up) down
  let distance n := interval.distance (n * up) down
  match holds floor, holds (floor + 1) with
  | true, true =>
    if distance (floor + 1) < distance floor
      || (distance (floor + 1) = distance floor && floor % 2 = 1)
    then some (floor + 1) else some floor
  | true, false => some floor
  | false, true => some (floor + 1)
  | false, false => none

/-- (shortestFrom interval order count left) tries count digits, then more, left times. -/
def shortestFrom (interval : Interval) (order : Int) (count : Nat) : Nat → Nat × Int
  | 0 => (interval.value / interval.den, 0)
  | left + 1 =>
    let unit := order + 1 - count
    match gridPoint? interval unit with
    | some n => (n, unit)
    | none => shortestFrom interval order (count + 1) left

/-- (dropZeros n unit left) moves trailing zeros of n, at most left of them, to the unit. -/
def dropZeros (n : Nat) (unit : Int) : Nat → Nat × Int
  | 0 => (n, unit)
  | left + 1 => if n % 10 = 0 then dropZeros (n / 10) (unit + 1) left else (n, unit)

/-- (shortest m e) are the digits n and the unit u with n·10^u the shortest form of m·2^e, for
m > 0. Seventeen digits always suffice.
-/
def shortest (m : Nat) (e : Int) : Nat × Int :=
  let interval := Interval.ofFinite m e
  let order := decimalOrder interval.value interval.den
  let (n, unit) := shortestFrom interval order 1 17
  dropZeros n unit 17

/-- How a decimal form is written: where positional notation begins and ends, how an exponent
looks, and the texts of the numbers that are not finite.
-/
structure NumberStyle where
  /-- Positional notation is used for orders from this one … -/
  positionalFrom : Int
  /-- … to the last before this one. -/
  positionalUntil : Int
  /-- Whether an exponent that is not negative carries a plus sign. -/
  plus : Bool
  /-- The least number of digits of an exponent. -/
  exponentWidth : Nat
  infinity : String
  minusInfinity : String
  nan : String

def NumberStyle.exponent (style : NumberStyle) (x : Int) : List Char :=
  let sign := if x < 0 then ['-'] else if style.plus then ['+'] else []
  'e' :: sign ++ Text.padded style.exponentWidth x.natAbs

def NumberStyle.digits (style : NumberStyle) (n : Nat) (unit : Int) : List Char :=
  let ds := Nat.toDigits 10 n
  let order := ds.length - 1 + unit
  if style.positionalFrom ≤ order && order < style.positionalUntil then
    if 0 ≤ unit then ds ++ List.replicate unit.toNat '0' ++ ['.', '0']
    else if 0 ≤ order then
      ds.take (order.toNat + 1) ++ '.' :: ds.drop (order.toNat + 1)
    else '0' :: '.' :: List.replicate (-order - 1).toNat '0' ++ ds
  else
    let fraction := ds.drop 1
    ds.take 1 ++ (if fraction.isEmpty then [] else '.' :: fraction) ++ style.exponent order

def NumberStyle.write (style : NumberStyle) (x : Binary64) : String :=
  match x with
  | .nan => style.nan
  | .infinite negative => if negative then style.minusInfinity else style.infinity
  | .finite negative m e =>
    let body :=
      if m = 0 then ['0', '.', '0']
      else
        let (n, unit) := shortest m e
        style.digits n unit
    String.ofList (if negative then '-' :: body else body)

/-- Doubles in messages are positional from 0.0001 up to 10^16, and an exponent has a sign and
two digits.
-/
def messageStyle : NumberStyle :=
  { positionalFrom := -4
    positionalUntil := 16
    plus := true
    exponentWidth := 2
    infinity := "inf"
    minusInfinity := "-inf"
    nan := "nan" }

/-- Doubles in documents are positional from 0.00001 up to 10^16, an exponent is bare, and there
is no text for a number that is not finite but that of nothing.
-/
def documentStyle : NumberStyle :=
  { positionalFrom := -5
    positionalUntil := 16
    plus := false
    exponentWidth := 1
    infinity := "null"
    minusInfinity := "null"
    nan := "null" }

def Binary64.text (x : Binary64) : String :=
  messageStyle.write x

end DeltaFeed.Decimal
