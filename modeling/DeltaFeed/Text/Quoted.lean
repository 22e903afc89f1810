import DeltaFeed.Text.Printable

/-! Quoted texts in messages. A text stands between single quotes, or between double quotes
when it holds a single quote and no double one; the quote in use, the backslash, and every
character that is not printable are escaped.
-/

namespace DeltaFeed.Text

/-- (hexDigits width n) writes n in lower-case hexadecimal, padded with zeros to the width. -/
def hexDigits (width n : Nat) : List Char :=
  (Nat.toDigits 16 n).leftpad width '0'

/-- (escapeCode c) writes the character by its code: two hexadecimal digits after `\x`, four
after `\u`, or eight after `\U`, as few as hold it.
-/
def escapeCode (c : Char) : List Char :=
  if c.toNat ≤ 0xff then '\\' :: 'x' :: hexDigits 2 c.toNat
  else if c.toNat ≤ 0xffff then '\\' :: 'u' :: hexDigits 4 c.toNat
  else '\\' :: 'U' :: hexDigits 8 c.toNat

/-- (quotedChar mark c) is the form of one character between two marks. -/
def quotedChar (mark c : Char) : List Char :=
  if c = mark || c = '\\' then ['\\', c]
  else if c = '\n' then ['\\', 'n']
  else if c = '\r' then ['\\', 'r']
  else if c = '\t' then ['\\', 't']
  else if isPrintable c then [c]
  else escapeCode c

/-- (quoteMark text) is the quote to use: the double one only for a text that holds a single
quote and no double one.
-/
def quoteMark (text : List Char) : Char :=
  if text.contains '\'' && !text.contains '"' then '"' else '\''

def quoted (text : String) : String :=
  let mark := quoteMark text.toList
  String.ofList (mark :: text.toList.flatMap (quotedChar mark) ++ [mark])

end DeltaFeed.Text
