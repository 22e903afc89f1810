import DeltaFeed.Op
import DeltaFeed.Time.Iso
import DeltaFeed.Integer

/-! Markers: the written instants from which a later sync goes on. A marker is a UTC time with a
final `Z` and milliseconds when it has any. Reading is generous: any ISO 8601 form, a count of
milliseconds, or a timestamp will do.
-/

namespace DeltaFeed.Marker

open Time (Timestamp Amount)

/-- (utcOf value) is a timestamp in UTC; other values have no offset to read. -/
def utcOf (value : Value) : Except Failure Timestamp :=
  match value with
  | .moment t => t.toUtc
  | _ => .error .noSuchMember

def millisOf (value : Value) : Except Failure Timestamp :=
  match value with
  | .bool b => Timestamp.ofMillisAmount (.whole (if b then 1 else 0))
  | .int n => Timestamp.ofMillisAmount (.whole n)
  | .float x => Timestamp.ofMillisAmount (.float x)
  | _ => .error .wrongType

/-- (normalizeText text) trims a marker and cuts a fraction of four to nine digits before a
final `Z` to three.
-/
def normalizeText (marker : List Char) : List Char :=
  let text := Text.trim marker
  match text.reverse with
  | 'Z' :: before =>
    let digits := before.takeWhile Text.isDecimal
    match before.dropWhile Text.isDecimal with
    | '.' :: rest =>
      if 4 ≤ digits.length && digits.length ≤ 9 then
        rest.reverse ++ '.' :: digits.reverse.take 3 ++ ['Z']
      else text
    | _ => text
  | _ => text

/-- (normalize marker) is the normal form of a marker; a change is reported. -/
def normalize {σ : Type} (marker : String) : Op σ String := do
  let normalized := String.ofList (normalizeText marker.toList)
  if normalized ≠ marker then
    .tell .debug .timestamps s!"Normalized marker: '{marker}' → '{normalized}'"
  return normalized

/-- (asciiIn low high c) is the value of a digit from low to high. -/
def asciiIn (low high : Nat) (c : Char) : Option Nat :=
  (Text.asciiValue? c).filter fun d => low ≤ d && d ≤ high

def pair (tens : Nat) (ones : Option Nat) : Option Nat :=
  ones.map (10 * tens + ·)

def monthField : List Char → Option Nat
  | [c] => asciiIn 1 9 c
  | ['0', c] => asciiIn 1 9 c
  | ['1', c] => pair 1 (asciiIn 0 2 c)
  | _ => none

/-- (dayField text) reads a day of one or two digits; a single one may follow a space. -/
def dayField : List Char → Option Nat
  | [c] => asciiIn 1 9 c
  | [' ', c] => asciiIn 1 9 c
  | ['0', c] => asciiIn 1 9 c
  | ['1', c] => pair 1 (Text.decimalValue? c)
  | ['2', c] => pair 2 (Text.decimalValue? c)
  | ['3', c] => pair 3 (asciiIn 0 1 c)
  | _ => none

def hourField : List Char → Option Nat
  | [c] => Text.decimalValue? c
  | ['0', c] => Text.decimalValue? c
  | ['1', c] => pair 1 (Text.decimalValue? c)
  | ['2', c] => pair 2 (asciiIn 0 3 c)
  | _ => none

def minuteField : List Char → Option Nat
  | [c] => Text.decimalValue? c
  | [t, c] => do pair (← asciiIn 0 5 t) (Text.decimalValue? c)
  | _ => none

def yearField (text : List Char) : Option Nat :=
  if text.length = 4 then
    text.foldlM (fun n c => (Text.decimalValue? c).map (10 * n + ·)) 0
  else none

/-- (field stop read text) reads a field that ends before the stop character, of either case,
and takes the stop off.
-/
def field (stop : Char) (read : List Char → Option Nat) (text : List Char)
    : Option (Nat × List Char) := do
  let isStop (c : Char) : Bool := c == stop || c == stop.toLower
  match text.dropWhile (!isStop ·) with
  | [] => none
  | _ :: rest => return (← read (text.takeWhile (!isStop ·)), rest)

/-- (readPlain text) reads a marker without a fraction, in whose fields a leading zero may be
missing.
-/
def readPlain (text : List Char) : Option Timestamp := do
  let (year, rest) ← field '-' yearField text
  let (month, rest) ← field '-' monthField rest
  let (day, rest) ← field 'T' dayField rest
  let (hour, rest) ← field ':' hourField rest
  let (minute, rest) ← field ':' minuteField rest
  let (second, rest) ← field 'Z' minuteField rest
  if !rest.isEmpty || year < 1 || Time.daysInMonth year month < day then none
  else return .ofFields { year, month, day } hour minute second 0 (some 0)

/-- (sixDigits text) brings every fraction in a text to six digits. -/
def sixDigits : List Char → List Char
  | [] => []
  | c :: rest =>
    if c = '.' && (rest.head?.map Text.isDecimal).getD false then
      let digits := rest.takeWhile Text.isDecimal
      '.' :: (digits ++ List.replicate 6 '0').take 6 ++ sixDigits (rest.dropWhile Text.isDecimal)
    else c :: sixDigits rest
termination_by text => text.length
decreasing_by
  · have := (List.dropWhile_sublist Text.isDecimal (l := rest)).length_le
    simp only [List.length_cons]
    omega
  · simp

def offsetForm (text : List Char) : List Char :=
  match text.reverse with
  | 'Z' :: before => before.reverse ++ ['+', '0', '0', ':', '0', '0']
  | _ => text

def readText (text : String) : Except Failure Timestamp :=
  let text := Text.trim text.toList
  if !text.isEmpty && text.all Text.isDigit then do Timestamp.ofMillis (← Integer.read text)
  else
    match readPlain text with
    | some t => .ok t
    | none =>
      match Time.readIso (offsetForm (sixDigits text)) with
      | .ok t => t.toUtc
      | .error reason => .error (.badValue reason)

/-- (toInstant value) is the instant that a value denotes: a timestamp, milliseconds, or a
text.
-/
def toInstant (value : Value) : Except Failure Timestamp :=
  match value with
  | .moment t => t.toUtc
  | .int n => Timestamp.ofMillis n
  | .float .nan => .error (.badValue .nanToInteger)
  | .float (.infinite _) => .error .outOfRange
  | .float x => Timestamp.ofMillis x.truncate
  | .text s => readText s
  | value => .error (.unsupportedInstant value.kindName)

/-- (ofUtc t) writes the marker of an instant given in UTC. The year is not padded. -/
def ofUtc (t : Timestamp) : String :=
  let d := t.date
  let (hour, minute, second) := t.clock
  let micro := t.microsecond
  let fraction := if micro = 0 then [] else '.' :: Text.padded 3 (micro / 1000)
  String.ofList (Nat.toDigits 10 d.year ++ '-' :: Time.two d.month ++ '-' :: Time.two d.day
    ++ 'T' :: Time.clockText hour minute second ++ fraction ++ ['Z'])

def write (t : Timestamp) : Except Failure String :=
  return ofUtc (← t.toUtc)

/-- (prepone t hours) moves a timestamp back by a number of hours. Scanning a few commits again
does no harm, and it makes up for clocks that disagree.
-/
def prepone {σ : Type} (t : Timestamp) (hours : Amount) : Op σ Timestamp := do
  let span ← .ofResult (hours.micros Time.hourMicros)
  let adjusted ← .ofResult (t.back span)
  let (h, t, a) := (hours.text, t.iso, adjusted.iso)
  .tell .info .timestamps s!"Preponed instant by {h}h: '{t}' → '{a}'"
  return adjusted

def preponeValue {σ : Type} (value : Value) (hours : Amount) : Op σ Timestamp := do
  let _ ← .ofResult (hours.micros Time.hourMicros)
  match value with
  | .moment t => prepone t hours
  | _ => .fail .wrongType

/-- (parse marker) is the instant of a stored marker, to the millisecond if it is a text. -/
def parse {σ : Type} (marker : Value) : Op σ Timestamp := do
  match marker with
  | .text s => .ofResult (toInstant (.text (← normalize s)))
  | marker => .ofResult (toInstant marker)

/-- (process marker enabled hours) is the instant of a stored marker, moved back if that is
enabled and the hours are positive.
-/
def process {σ : Type} (marker : Value) (enabled : Bool) (hours : Amount) : Op σ Timestamp := do
  let instant ← parse marker
  if enabled && hours.isPositive then
    let adjusted ← prepone instant hours
    let before ← .ofResult (write instant)
    let after ← .ofResult (write adjusted)
    let h := hours.text
    .tell .info .markers
      s!"Marker preponed: original={before}, adjusted={after} (preponed by {h}h)"
    return adjusted
  else return instant

/-- (lastSync marker hours) is the instant from which a sync goes on after the one that stored
the marker.
-/
def lastSync {σ : Type} (marker : Value) (hours : Amount) : Op σ Timestamp := do
  let instant ← process marker hours.isPositive hours
  let shown ← .ofResult (write instant)
  .tell .info .markers s!"Incremental sync from marker={shown}"
  return instant

end DeltaFeed.Marker
