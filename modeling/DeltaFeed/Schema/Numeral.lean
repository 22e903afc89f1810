import DeltaFeed.Text.Numeral

/-! Integers in texts that a check takes. A numeral is read as it stands, or else after it was
cleaned: without white space around it, a plus sign, leading zeros, single underscores, and a
fraction of zeros. A numeral that is too long is a fault of its own only as it stands.
-/

namespace DeltaFeed.Schema

/-- The greatest number of characters of a numeral, with its sign. -/
def maxNumeral : Nat := 4300

def splitMinus : List Char → Bool × List Char
  | '-' :: rest => (true, rest)
  | text => (false, text)

/-- (isTooLong text) holds if a text begins with a numeral without leading zeros that is too long.
-/
def isTooLong (text : List Char) : Bool :=
  let (negative, body) := splitMinus text
  let digits := body.takeWhile Text.isAsciiDigit
  digits.head? ≠ some '0' && maxNumeral < digits.length + negative.toNat

/-- (exactInteger? text) reads a numeral without leading zeros. -/
def exactInteger? (text : List Char) : Option Int :=
  let (negative, digits) := splitMinus text
  let zeros := digits.head? = some '0' && 1 < digits.length
  if digits.isEmpty || zeros || !digits.all Text.isAsciiDigit || isTooLong text then none
  else some (Text.applySign negative (Nat.ofDigitChars 10 digits 0))

/-- (afterZero last text) drops zeros, and underscores among them, up to another digit or a minus
sign. Before a point and at the end the last of them stays.
-/
def afterZero (last : Char) : List Char → Option (List Char)
  | [] => some [last]
  | c :: rest =>
    if c = '0' || c = '_' then afterZero c rest
    else if c = '.' then some (last :: c :: rest)
    else if c = '-' || Text.isAsciiDigit c then some (c :: rest)
    else none

def dropZeros : List Char → Option (List Char)
  | [] => none
  | c :: rest =>
    if c = '0' then afterZero c rest
    else if c = '-' || Text.isAsciiDigit c then some (c :: rest)
    else none

/-- (dropFraction text) drops a point with zeros after it. -/
def dropFraction (text : List Char) : List Char :=
  match text.dropWhile (· ≠ '.') with
  | _ :: zeros =>
    if zeros.isEmpty || !zeros.all (· == '0') then text else text.takeWhile (· ≠ '.')
  | [] => text

/-- (areSingle text) holds if no underscore of a text follows another one. -/
def areSingle : List Char → Bool
  | '_' :: '_' :: _ => false
  | _ :: rest => areSingle rest
  | [] => true

/-- (dropUnderscores text) drops single underscores between other characters, if all of them are.
-/
def dropUnderscores (text : List Char) : List Char :=
  if text.head? = some '_' || text.getLast? = some '_' || !areSingle text then text
  else text.filter (· ≠ '_')

/-- (cleaned? text) is the numeral that a text stands for, if it can be one. -/
def cleaned? (text : List Char) : Option (List Char) :=
  let clean (body : List Char) : Option (List Char) :=
    (dropZeros body).map fun body => dropUnderscores (dropFraction body)
  match Text.trimBy Text.isWhite text with
  | '+' :: '-' :: _ => none
  | '+' :: body => clean body
  | '-' :: body => (clean body).map ('-' :: ·)
  | body => clean body

/-- (readInteger? text) reads a numeral as it stands, or else cleaned. -/
def readInteger? (text : List Char) : Option Int :=
  (exactInteger? text).or ((cleaned? text).bind exactInteger?)

end DeltaFeed.Schema
