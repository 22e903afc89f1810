import DeltaFeed.Failure

/-! Integers read from texts, with the reason when a text is none. -/

namespace DeltaFeed.Integer

/-- The greatest number of digits that is read as an integer. -/
def maxDigits : Nat := 4300

/-- (leading text) are the digits and underscores that a numeral begins with, apart from white
space and sign.
-/
def leading (text : List Char) : List Char :=
  (Text.splitSign (Text.trimBy Text.isWhite text)).2.takeWhile fun c => Text.isDecimal c || c == '_'

/-- (read text) is the integer that a text writes. Whether the digits are too many is asked
before the rest of the text is looked at, but not of digits that are badly grouped.
-/
def read (text : List Char) : Except Failure Int :=
  let size := Text.digitCount (leading text)
  if maxDigits < size && (Text.readNatural (leading text)).isSome then
    .error (.badValue (.tooManyDigits size))
  else
    match Text.readInteger text with
    | some n => .ok n
    | none => .error (.badValue (.notInteger (String.ofList text)))

end DeltaFeed.Integer
