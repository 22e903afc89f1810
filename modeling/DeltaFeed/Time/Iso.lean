import DeltaFeed.Time.Timestamp

/-! Reading timestamps in ISO 8601 form. The date is written with or without hyphens, by month
and day or by week and weekday; any one character separates it from the time, which is written
with or without colons and may end in an offset.
-/

namespace DeltaFeed.Time

def digits (count : Nat) (text : List Char) : Option (Nat × List Char) :=
  go count 0 text
where
  go : Nat → Nat → List Char → Option (Nat × List Char)
    | 0, value, rest => some (value, rest)
    | _ + 1, _, [] => none
    | left + 1, value, c :: rest =>
      (Text.asciiValue? c).bind fun d => go left (10 * value + d) rest

/-- A date as it is written, before it is known to exist. -/
inductive WrittenDate where
  | monthly (year month day : Nat)
  | weekly (year : Nat) (dayNumber : Int)
deriving DecidableEq, Repr

/-- (separatorPlace text) is the place of the character between date and time. Only a week date
leaves a choice, which the number of digits that follow decides.
-/
def separatorPlace (text : List Char) : Option Nat :=
  let size := text.length
  let at? (i : Nat) (p : Char → Bool) : Bool := (text[i]?.map p).getD false
  if size = 7 then some 7
  else if at? 4 (· == '-') then
    if at? 5 (· == 'W') then
      if size < 8 then none
      else if at? 8 (· == '-') then
        if size = 9 then none
        else if at? 10 Text.isAsciiDigit then some 8
        else some 10
      else some 8
    else some 10
  else if at? 4 (· == 'W') then
    let place := 7 + ((text.drop 7).takeWhile Text.isAsciiDigit).length
    if place < 9 then some place
    else if place % 2 = 0 then some 7
    else some 8
  else some 8

def closing (text : List Char) : Option Unit :=
  if text.isEmpty then some () else none

def hyphen (wanted : Bool) (text : List Char) : Option (List Char) :=
  match wanted, text with
  | false, rest => some rest
  | true, '-' :: rest => some rest
  | true, _ => none

/-- (readDate size text) reads the date at the beginning of a text; its first size characters
are known to belong to it.
-/
def readDate (size : Nat) (text : List Char) : Option WrittenDate := do
  let (year, rest) ← digits 4 text
  let hyphens := rest.head? == some '-'
  let rest ← hyphen hyphens rest
  match rest with
  | 'W' :: rest =>
    let (week, rest) ← digits 2 rest
    let weekday ←
      if text.length - rest.length < size then do
        let rest ← hyphen hyphens rest
        let (weekday, _) ← digits 1 rest
        pure weekday
      else pure 1
    return .weekly year (← weekDate? year week weekday)
  | rest =>
    let (month, rest) ← digits 2 rest
    let rest ← hyphen hyphens rest
    let (day, _) ← digits 2 rest
    return .monthly year month day

/-- A time of day as it is written, before it is known to exist. -/
structure WrittenTime where
  hour : Nat := 0
  minute : Nat := 0
  second : Nat := 0
  micro : Nat := 0
deriving DecidableEq, Repr

/-- (fraction text) reads up to six digits of a fraction as microseconds, skips the digits after
them, and gives what is left.
-/
def fraction (text : List Char) : Option (Nat × List Char) := do
  let size := min 6 text.length
  let (value, rest) ← digits size text
  return (value * Nat.pow 10 (6 - size), rest.dropWhile Text.isAsciiDigit)

/-- (nextChar rest after) is the next character of a part of a text that the character after
follows; a text is followed by the character NUL.
-/
def nextChar (rest : List Char) (after : Char) : Char :=
  rest.head?.getD after

def endOfText : Char := '\x00'

/-- (lastByte rest) holds of an empty rest and of a single ASCII character. -/
def lastByte : List Char → Bool
  | [] => true
  | [c] => c.toNat < 0x80
  | _ => false

/-- (readTime text after) reads a time of day from the part of a text that the character after
follows, and tells whether the text ends with it. A single ASCII character after the last
pair of digits is allowed when more text follows.
-/
def readTime (text : List Char) (after : Char) : Option (WrittenTime × Bool) := do
  let done (rest : List Char) : Bool := nextChar rest after == endOfText
  let withFraction (time : WrittenTime) (rest : List Char) := do
    let (micro, rest) ← fraction rest
    return ({ time with micro }, done rest)
  let (hour, rest) ← digits 2 text
  let colons := nextChar rest after == ':'
  if lastByte rest then return ({ hour }, done rest)
  match rest with
  | '.' :: rest | ',' :: rest => withFraction { hour } rest
  | rest =>
    let rest := if colons then rest.drop 1 else rest
    let (minute, rest) ← digits 2 rest
    if lastByte rest then return ({ hour, minute }, done rest)
    match rest with
    | '.' :: rest | ',' :: rest => withFraction { hour, minute } rest
    | rest =>
      let rest ←
        if colons then
          match rest with
          | ':' :: rest => some rest
          | _ => none
        else some rest
      let (second, rest) ← digits 2 rest
      if lastByte rest then return ({ hour, minute, second }, done rest)
      match rest with
      | '.' :: rest | ',' :: rest => withFraction { hour, minute, second } rest
      | rest =>
        let rest ←
          if colons then
            match rest with
            | ':' :: rest => some rest
            | _ => none
          else some rest
        withFraction { hour, minute, second } rest

/-- (readClock text) reads a time of day with an optional offset, which is given in
microseconds. An offset of no whole second is none at all.
-/
def readClock (text : List Char) : Option (WrittenTime × Option Int) := do
  let isZone (c : Char) : Bool := c == '+' || c == '-' || c == 'Z'
  let body := text.takeWhile (!isZone ·)
  match text.dropWhile (!isZone ·) with
  | [] =>
    let (time, done) ← readTime body endOfText
    if done then return (time, none) else none
  | sign :: zone =>
    let (time, _) ← readTime body sign
    if sign == 'Z' then
      if nextChar zone endOfText == endOfText then return (time, some 0) else none
    else
      let (offset, done) ← readTime zone endOfText
      if !done then none
      else
        let seconds := offset.hour * 3600 + offset.minute * 60 + offset.second
        let micros := if seconds = 0 then 0 else seconds * 1000000 + offset.micro
        return (time, some (Text.applySign (sign == '-') micros))

/-- (checkDate date) is the date that was written, if it exists. -/
def checkDate (date : WrittenDate) : Except BadValue Date := do
  match date with
  | .monthly year month day =>
    if year < 1 then .error (.year year)
    else if month < 1 || 12 < month then .error .month
    else if day < 1 || daysInMonth year month < day then .error .day
    else return { year, month, day }
  | .weekly year dayNumber =>
    -- the weeks of year 0 lie in no month
    if year < 1 then .error .month
    else
      let date := Date.ofDayNumber dayNumber.toNat
      if 9999 < date.year then .error (.year date.year) else return date

def checkTime (time : WrittenTime) : Except BadValue Unit :=
  if 23 < time.hour then .error .hour
  else if 59 < time.minute then .error .minute
  else if 59 < time.second then .error .second
  else .ok ()

def checkOffset (offset : Option Int) : Except BadValue Unit :=
  match offset with
  | some micros =>
    if dayMicros ≤ micros.natAbs then .error (.offset micros) else .ok ()
  | none => .ok ()

/-- (written text) splits a text into its date, time and offset as they are written. -/
def written (text : List Char) : Option (WrittenDate × WrittenTime × Option Int) := do
  if text.length < 7 then none
  else
    let place ← separatorPlace text
    let date ← readDate place text
    if text.length ≤ place then return (date, {}, none)
    else
      let (time, offset) ← readClock (text.drop (place + 1))
      return (date, time, offset)

def readIso (text : List Char) : Except BadValue Timestamp := do
  match written text with
  | none => .error (.notIso (String.ofList text))
  | some (date, time, offset) =>
    checkOffset offset
    let date ← checkDate date
    checkTime time
    return .ofFields date time.hour time.minute time.second time.micro offset

end DeltaFeed.Time
