import DeltaFeed.Text.Uppercase
import DeltaFeed.Time.Timestamp

/-! Patterns of timestamps. A percent sign with a letter stands for a part of the date or the time;
flags, a width and a modifier may stand between the two. All else stands for itself, and so does
what no part has the letter of.
-/

namespace DeltaFeed.Time.Pattern

def dayNames : List String :=
  ["Sunday", "Monday", "Tuesday", "Wednesday", "Thursday", "Friday", "Saturday"]

def monthNames : List String :=
  ["January", "February", "March", "April", "May", "June", "July", "August", "September",
    "October", "November", "December"]

structure Style where
  /-- What fills up the width: zeros, blanks, or nothing in front of a number. -/
  pad : Option Char := none
  upper : Bool := false
  swap : Bool := false
  width : Nat := 0
  /-- Whether the width was begun, after which there are no more flags. -/
  sized : Bool := false
  modifier : Option Char := none

/-- A stretch of the text: characters that fill up a width, and what follows them. -/
structure Stretch where
  filler : Char := ' '
  count : Nat := 0
  body : List Char

def Stretch.length (stretch : Stretch) : Nat :=
  stretch.count + stretch.body.length

def Stretch.text (stretch : Stretch) : List Char :=
  List.replicate stretch.count stretch.filler ++ stretch.body

def totalLength (stretches : List Stretch) : Nat :=
  stretches.foldl (fun n stretch => n + stretch.length) 0

/-- (weekday t) is the day of the week, 0 for a Sunday. -/
def weekday (t : Timestamp) : Nat :=
  (t.date.dayNumber + 1) % 7

def yearDay (t : Timestamp) : Nat :=
  t.date.dayNumber - daysBeforeYear t.date.year

def hour12 (t : Timestamp) : Nat :=
  let hour := t.clock.1 % 12
  if hour = 0 then 12 else hour

def weekYear (t : Timestamp) : Nat :=
  let day : Int := t.date.dayNumber
  let year := t.date.year
  if day < firstWeekStart year then year - 1
  else if firstWeekStart (year + 1) ≤ day then year + 1
  else year

def weekNumber (t : Timestamp) : Nat :=
  ((t.date.dayNumber - firstWeekStart (weekYear t)) / 7 + 1).toNat

def dayName (t : Timestamp) : List Char :=
  (dayNames.getD (weekday t) "").toList

def monthName (t : Timestamp) : List Char :=
  (monthNames.getD (t.date.month - 1) "").toList

def halfDay (t : Timestamp) : List Char :=
  if t.clock.1 < 12 then ['A', 'M'] else ['P', 'M']

/-- A part that is a number: the least number of digits, the number, and whether blanks stand in
front of it.
-/
structure Count where
  digits : Nat
  value : Nat
  blank : Bool := false

def count? (t : Timestamp) (letter : Char) : Option Count :=
  let (hour, minute, second) := t.clock
  match letter with
  | 'C' => some { digits := 1, value := t.date.year / 100 }
  | 'Y' => some { digits := 1, value := t.date.year }
  | 'y' => some { digits := 2, value := t.date.year % 100 }
  | 'G' => some { digits := 1, value := weekYear t }
  | 'g' => some { digits := 2, value := weekYear t % 100 }
  | 'm' => some { digits := 2, value := t.date.month }
  | 'd' => some { digits := 2, value := t.date.day }
  | 'e' => some { digits := 2, value := t.date.day, blank := true }
  | 'j' => some { digits := 3, value := yearDay t + 1 }
  | 'H' => some { digits := 2, value := hour }
  | 'I' => some { digits := 2, value := hour12 t }
  | 'k' => some { digits := 2, value := hour, blank := true }
  | 'l' => some { digits := 2, value := hour12 t, blank := true }
  | 'M' => some { digits := 2, value := minute }
  | 'S' => some { digits := 2, value := second }
  | 'u' => some { digits := 1, value := weekdayOf t.date.dayNumber + 1 }
  | 'w' => some { digits := 1, value := weekday t }
  | 'U' => some { digits := 2, value := (yearDay t + 7 - weekday t) / 7 }
  | 'W' => some { digits := 2, value := (yearDay t + 7 - weekdayOf t.date.dayNumber) / 7 }
  | 'V' => some { digits := 2, value := weekNumber t }
  | _ => none

def word? (t : Timestamp) (letter : Char) : Option (List Char) :=
  let (hour, minute, second) := t.clock
  let clock := clockText hour minute second
  let year := Text.padded 1 t.date.year
  let (month, day) := (two t.date.month, two t.date.day)
  match letter with
  | '%' => some ['%']
  | 'n' => some ['\n']
  | 't' => some ['\t']
  | 'a' => some ((dayName t).take 3)
  | 'A' => some (dayName t)
  | 'b' | 'h' => some ((monthName t).take 3)
  | 'B' => some (monthName t)
  | 'p' => some (halfDay t)
  | 'P' => some ((halfDay t).map Char.toLower)
  | 'D' | 'x' => some (month ++ '/' :: day ++ '/' :: two (t.date.year % 100))
  | 'F' => some (year ++ '-' :: month ++ '-' :: day)
  | 'R' => some (two hour ++ ':' :: two minute)
  | 'T' | 'X' => some clock
  | 'r' => some (clockText (hour12 t) minute second ++ ' ' :: halfDay t)
  | 'c' =>
    let blankDay := if t.date.day < 10 then ' ' :: Text.padded 1 t.date.day else day
    some ((dayName t).take 3 ++ ' ' :: (monthName t).take 3 ++ ' ' :: blankDay
      ++ ' ' :: clock ++ ' ' :: year)
  | 's' => some (Text.decimal (Int.fdiv t.wall 1000000)).toList
  | 'z' | 'Z' => some []
  | _ => none

/-- The modifiers, and the letters that they do not go with. -/
def refused : List (Char × List Char) :=
  let neither := ['%', 'a', 'A', 'D', 'F']
  [('E', neither ++ ['b', 'h', 'B', 'd', 'e', 'g', 'j', 'k', 'l', 'm', 'w', 'G', 'H', 'I', 'M', 'S',
      'U', 'V', 'W']),
    ('O', neither ++ ['c', 'x', 'X', 'Y'])]

def Style.isRefused (style : Style) (letter : Char) : Bool :=
  ((style.modifier.bind fun c => refused.lookup c).getD []).contains letter

/-- (style.fill text) fills a text up to the width; nothing is filled up for an empty text without
padding.
-/
def Style.fill (style : Style) (text : List Char) : Stretch :=
  { filler := if style.pad = some '0' then '0' else ' '
    count := if text.isEmpty && style.pad = some '-' then 0 else style.width - text.length
    body := text }

def Style.number (style : Style) (count : Count) : Stretch :=
  let digits := Text.padded 1 count.value
  let pad := if count.blank then style.pad.getD '_' else style.pad.getD '0'
  if pad = '-' then style.fill digits
  else
    { filler := if pad = '_' then ' ' else '0'
      count := max count.digits style.width - digits.length
      body := digits }

def monthLetters : List Char := ['b', 'h', 'B']

/-- The letters whose parts are changed to capitals when the case is swapped. -/
def raised : List Char := 'a' :: 'A' :: monthLetters

/-- The letters whose parts are changed to small letters when the case is swapped. -/
def lowered : List Char := ['p', 'P', 'Z']

def Style.cased (style : Style) (letter : Char) (text : List Char) : List Char :=
  if letter = 'P' || (style.swap && lowered.contains letter) then text.map Char.toLower
  else if style.upper || (style.swap && raised.contains letter) then text.map Text.capital
  else text

/-- (style.verbatim read) is a directive that stands for itself. -/
def Style.verbatim (style : Style) (read : List Char) : Stretch :=
  style.fill (if style.upper then read.map Text.capital else read)

/-- (style.refuse letter read) is the part of a letter that the modifier does not go with. The case
of the name of a month is settled before the modifier is refused.
-/
def Style.refuse (style : Style) (letter : Char) (read : List Char) : Stretch :=
  let style := { style with upper := style.upper || (style.swap && monthLetters.contains letter) }
  style.verbatim (if letter = '%' then ['%'] else read)

def Style.part (style : Style) (t : Timestamp) (letter : Char) (read : List Char) : Stretch :=
  if style.isRefused letter then style.refuse letter read
  else
    match count? t letter, word? t letter with
    | some count, _ => style.number count
    | none, some text =>
      if letter = 'z' then { body := [] } else style.fill (style.cased letter text)
    | none, none => style.verbatim read

inductive Mode where
  | outside
  /-- Inside a directive, as far as it was read, from the last character to the first. -/
  | directive (style : Style) (read : List Char)

def maxWidth : Nat := 2147483647

/-- (style.next? c) is the style after one more character, unless that is the letter. -/
def Style.next? (style : Style) (c : Char) : Option Style :=
  if style.modifier.isSome then none
  else if !style.sized && (c = '_' || c = '-' || c = '0') then some { style with pad := some c }
  else if !style.sized && c = '^' then some { style with upper := true }
  else if !style.sized && c = '#' then some { style with swap := true }
  else if c = 'E' || c = 'O' then some { style with modifier := some c }
  else
    (Text.asciiValue? c).map fun d =>
      { style with sized := true, width := min maxWidth (10 * style.width + d) }

def scan (t : Timestamp) : Mode → List Char → List Stretch
  | .outside, [] => []
  | .outside, c :: rest =>
    if c = '%' then scan t (.directive {} ['%']) rest
    else { body := [c] } :: scan t .outside rest
  | .directive style read, [] => [style.verbatim read.reverse]
  | .directive style read, c :: rest =>
    match style.next? c with
    | some style => scan t (.directive style (c :: read)) rest
    | none => style.part t c (c :: read).reverse :: scan t .outside rest

/-- (replaced t pattern) is a pattern in which the offset, the name of the clock and the
microseconds stand as they are.
-/
def replaced (t : Timestamp) : List Char → List Char
  | '%' :: c :: rest =>
    let text :=
      match c with
      | 'z' => (t.offset.map (offsetParts [])).getD []
      | 'Z' => (t.offset.map zoneName).getD []
      | 'f' => Text.padded 6 t.microsecond
      | c => ['%', c]
    text ++ replaced t rest
  | c :: rest => c :: replaced t rest
  | [] => []

/-- (room size) is how long the text of a pattern of some size must stay below. -/
def room (size : Nat) : Nat :=
  256 * max 4 size.nextPowerOfTwo

/-- (write t pattern) is the text of a pattern, which ends at a null character. A text that is too
long for its pattern is empty.
-/
def write (t : Timestamp) (pattern : List Char) : List Char :=
  let pattern := replaced t (pattern.takeWhile (· ≠ '\x00'))
  let stretches := scan t .outside pattern
  if totalLength stretches < room pattern.length then stretches.flatMap Stretch.text
  else []

end DeltaFeed.Time.Pattern
