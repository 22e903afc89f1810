import DeltaFeed.Value
import DeltaFeed.Failure

/-! Documents from values, without spaces. -/

namespace DeltaFeed.Document

def escape (c : Char) : List Char :=
  match c with
  | '"' => ['\\', '"']
  | '\\' => ['\\', '\\']
  | '\n' => ['\\', 'n']
  | '\t' => ['\\', 't']
  | '\r' => ['\\', 'r']
  | '\x08' => ['\\', 'b']
  | '\x0c' => ['\\', 'f']
  | c =>
    if c.toNat < 0x20 then
      ['\\', 'u', '0', '0', Nat.digitChar (c.toNat / 16), Nat.digitChar (c.toNat % 16)]
    else [c]

def writeText (s : String) : List Char :=
  '"' :: s.toList.flatMap escape ++ ['"']

/-- (writeInt n) writes an integer that a reader keeps exactly. -/
def writeInt (n : Int) : Option (List Char) :=
  if -9223372036854775808 ≤ n && n ≤ 18446744073709551615 then some (Text.decimal n).toList
  else none

/-- (minuteOffset micros) writes an offset by its hours and minutes. Half a minute or more counts as
one more minute, which is not carried over to the hours.
-/
def minuteOffset (micros : Int) : List Char :=
  let seconds := micros.natAbs / 1000000
  let sign := if micros < 0 then '-' else '+'
  let minutes := seconds / 60 % 60 + if 30 ≤ seconds % 60 then 1 else 0
  sign :: Time.two (seconds / 3600) ++ ':' :: Time.two minutes

def writeMoment (t : Time.Timestamp) : List Char :=
  writeText (String.ofList (t.reading 'T' ++ (t.offset.map minuteOffset).getD []))

mutual

def writeValue : Value → Option (List Char)
  | .null => some ['n', 'u', 'l', 'l']
  | .bool true => some ['t', 'r', 'u', 'e']
  | .bool false => some ['f', 'a', 'l', 's', 'e']
  | .int n => writeInt n
  | .float x => some (Decimal.documentStyle.write x).toList
  | .text s => some (writeText s)
  | .list items => (writeItems items).map fun body => '[' :: body ++ [']']
  | .record fields => (writeFields fields).map fun body => '{' :: body ++ ['}']
  | .moment t => some (writeMoment t)
  | .lastSync _ => none

def writeItems : List Value → Option (List Char)
  | [] => some []
  | [item] => writeValue item
  | item :: rest => do return (← writeValue item) ++ ',' :: (← writeItems rest)

def writeField : String × Value → Option (List Char)
  | (key, value) => (writeValue value).map fun body => writeText key ++ ':' :: body

def writeFields : List (String × Value) → Option (List Char)
  | [] => some []
  | [field] => writeField field
  | field :: rest => do return (← writeField field) ++ ',' :: (← writeFields rest)

end

mutual

/-- (depth value) is the greatest number of lists and records inside each other, where an empty list
does not count.
-/
def depth : Value → Nat
  | .list items => depthOfItems items
  | .record fields => depthOfFields fields + 1
  | _ => 0

def depthOfItems : List Value → Nat
  | [] => 0
  | item :: rest => max (depth item + 1) (depthOfItems rest)

def depthOfField : String × Value → Nat
  | (_, value) => depth value

def depthOfFields : List (String × Value) → Nat
  | [] => 0
  | field :: rest => max (depthOfField field) (depthOfFields rest)

end

def maxWrittenDepth : Nat := 254

def write (value : Value) : Except Failure String :=
  if maxWrittenDepth < depth value then .error .unwritable
  else
    match writeValue value with
    | some text => .ok (String.ofList text)
    | none => .error .unwritable

end DeltaFeed.Document
