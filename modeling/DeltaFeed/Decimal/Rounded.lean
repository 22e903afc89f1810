import DeltaFeed.Decimal.Shortest

/-! Decimal forms with a given number of places or digits. A number num/den is rounded to the
nearest form, with ties to even.
-/

namespace DeltaFeed.Decimal

structure Numeral where
  whole : List Char
  fraction : List Char := []
  exponent : Option Int := none
deriving Repr

/-- (significant num den count) are the count digits n of num/den and its order k, where num/den is
about n·10^(k+1-count).
-/
def significant (num den count : Nat) : Nat × Int :=
  if num = 0 then (0, 0)
  else
    let order := decimalOrder num den
    let shift : Int := count - 1 - order
    let n := roundHalfEven (num * Nat.pow 10 shift.toNat) (den * Nat.pow 10 (-shift).toNat)
    if n < Nat.pow 10 count then (n, order) else (n / 10, order + 1)

namespace Numeral

/-- (fixed num den places) has a given number of places after the point. -/
def fixed (num den places : Nat) : Numeral :=
  let digits := Text.padded (places + 1) (roundHalfEven (num * Nat.pow 10 places) den)
  let point := digits.length - places
  { whole := digits.take point, fraction := digits.drop point }

/-- (scientific digits order) has one digit before the point, and an exponent. -/
def scientific (digits : List Char) (order : Int) : Numeral :=
  { whole := digits.take 1, fraction := digits.drop 1, exponent := some order }

def positional (digits : List Char) (order : Int) : Numeral :=
  if order < 0 then
    { whole := ['0'], fraction := List.replicate (-order - 1).toNat '0' ++ digits }
  else
    let zeros := List.replicate (order.toNat + 1 - digits.length) '0'
    { whole := digits.take (order.toNat + 1) ++ zeros, fraction := digits.drop (order.toNat + 1) }

/-- (pointed numeral) has at least one place after the point, unless it has an exponent. -/
def pointed (numeral : Numeral) : Numeral :=
  if numeral.fraction.isEmpty && numeral.exponent.isNone then { numeral with fraction := ['0'] }
  else numeral

/-- (exponential num den places) has one digit before the point and a given number of places after
it.
-/
def exponential (num den places : Nat) : Numeral :=
  let (n, order) := significant num den (places + 1)
  scientific (Text.padded (places + 1) n) order

/-- (withoutZeros digits) drops the zeros at the end, but not the first digit. -/
def withoutZeros (digits : List Char) : List Char :=
  digits.take 1 ++ ((digits.drop 1).reverse.dropWhile (· == '0')).reverse

/-- (general num den count limit full) has count significant digits, those at the end not written
when they are zero, unless it is full. It is positional for orders from -4 to below the limit.
-/
def general (num den count : Nat) (limit : Int) (full : Bool) : Numeral :=
  let (n, order) := significant num den count
  let digits := Text.padded count n
  let digits := if full then digits else withoutZeros digits
  if order < -4 || limit ≤ order then scientific digits order else positional digits order

/-- (plain style m e) is the shortest form of m·2^e. -/
def plain (style : NumberStyle) (m : Nat) (e : Int) : Numeral :=
  if m = 0 then positional ['0'] 0
  else
    let (n, unit) := shortest m e
    let digits := Nat.toDigits 10 n
    let order := digits.length - 1 + unit
    if style.positionalFrom ≤ order && order < style.positionalUntil then positional digits order
    else scientific digits order

/-- (numeral.tail style point) is what follows the digits before the point, which is itself
written if there is something after it or if point says so.
-/
def tail (numeral : Numeral) (style : NumberStyle) (point : Bool) : List Char :=
  let fraction :=
    if numeral.fraction.isEmpty && !point then [] else '.' :: numeral.fraction
  fraction ++ (numeral.exponent.map style.exponent).getD []

def isZero (numeral : Numeral) : Bool :=
  (numeral.whole ++ numeral.fraction).all (· == '0')

end Numeral

end DeltaFeed.Decimal
