import DeltaFeed.Text.Blank
import DeltaFeed.Text.Digit

/-! Decimal numerals: integers as they are written and as they are read. A numeral that is
read may stand between white space, carry a sign, use the decimal digits of any script, and group
its digits with single underscores.
-/

namespace DeltaFeed.Text

def decimal (n : Int) : String :=
  match n with
  | .ofNat n => String.ofList (Nat.toDigits 10 n)
  | .negSucc n => String.ofList ('-' :: Nat.toDigits 10 (n + 1))

/-- (padded width n) writes n in decimal with leading zeros up to the width. -/
def padded (width n : Nat) : List Char :=
  (Nat.toDigits 10 n).leftpad width '0'

/-- (signedPadded width n) writes an integer with leading zeros up to the width; the sign of a
negative one counts towards the width.
-/
def signedPadded (width : Nat) (n : Int) : List Char :=
  match n with
  | .ofNat n => padded width n
  | .negSucc n => '-' :: padded (width - 1) (n + 1)

/-- (moreDigits value digits) reads on after a digit, where a single underscore may stand
before each further digit.
-/
def moreDigits (value : Nat) : List Char → Option Nat
  | [] => some value
  | '_' :: c :: rest => (decimalValue? c).bind fun d => moreDigits (10 * value + d) rest
  | c :: rest => (decimalValue? c).bind fun d => moreDigits (10 * value + d) rest

def readNatural : List Char → Option Nat
  | [] => none
  | c :: rest => (decimalValue? c).bind fun d => moreDigits d rest

/-- (splitSign text) takes off a leading sign; true stands for minus. -/
def splitSign : List Char → Bool × List Char
  | '-' :: rest => (true, rest)
  | '+' :: rest => (false, rest)
  | text => (false, text)

def applySign (negative : Bool) (n : Nat) : Int :=
  if negative then -(n : Int) else n

def readInteger (text : List Char) : Option Int :=
  let (negative, digits) := splitSign (trimBy isWhite text)
  (readNatural digits).map (applySign negative)

def digitCount (text : List Char) : Nat :=
  text.countP isDecimal

end DeltaFeed.Text
