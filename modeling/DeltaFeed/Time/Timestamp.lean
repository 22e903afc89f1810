import DeltaFeed.Failure
import DeltaFeed.Decimal.Shortest
import DeltaFeed.Time.Calendar

/-! Timestamps with microseconds. A timestamp is a reading of a clock together with the offset
of that clock from UTC, or without one; a reading without an offset is taken to be UTC. The
instants of years 1 to 9999 can be represented.
-/

namespace DeltaFeed.Time

/-- A clock reading. -/
structure Timestamp where
  /-- Microseconds that the clock shows since the beginning of 1970. -/
  wall : Int
  /-- Microseconds by which the clock is ahead of UTC, if that is known. -/
  offset : Option Int
deriving DecidableEq, Repr, Inhabited

def firstInstant : Int := -62135596800000000

def lastInstant : Int := 253402300799999999

def epochDay : Int := 719162

def dayMicros : Int := 86400000000

/-- (Representable micros) holds of the instants of years 1 to 9999. -/
def Representable (micros : Int) : Prop :=
  firstInstant ≤ micros ∧ micros ≤ lastInstant

instance (micros : Int) : Decidable (Representable micros) :=
  inferInstanceAs (Decidable (_ ∧ _))

namespace Timestamp

def utc (micros : Int) : Timestamp :=
  { wall := micros, offset := some 0 }

/-- (t.instant) is the instant of a timestamp, in microseconds since the beginning of 1970. -/
def instant (t : Timestamp) : Int :=
  t.wall - t.offset.getD 0

instance : LE Timestamp := ⟨fun a b => a.instant ≤ b.instant⟩

instance : LT Timestamp := ⟨fun a b => a.instant < b.instant⟩

instance (a b : Timestamp) : Decidable (a ≤ b) :=
  inferInstanceAs (Decidable (a.instant ≤ b.instant))

instance (a b : Timestamp) : Decidable (a < b) :=
  inferInstanceAs (Decidable (a.instant < b.instant))

def ofInstant (micros : Int) : Except Failure Timestamp :=
  if Representable micros then .ok (utc micros) else .error .outOfRange

/-- (ofMillis millis) is the timestamp of whole milliseconds since the beginning of 1970. -/
def ofMillis (millis : Int) : Except Failure Timestamp :=
  ofInstant (1000 * millis)

/-- (t.toUtc) is the same instant on a clock that shows UTC. -/
def toUtc (t : Timestamp) : Except Failure Timestamp :=
  ofInstant t.instant

/-- (t.back micros) moves a clock reading back and keeps its offset. -/
def back (t : Timestamp) (micros : Int) : Except Failure Timestamp :=
  let wall := t.wall - micros
  if Representable wall then .ok { t with wall } else .error .outOfRange

def date (t : Timestamp) : Date :=
  .ofDayNumber (Int.fdiv t.wall dayMicros + epochDay).toNat

def dayMicro (t : Timestamp) : Nat :=
  (Int.fmod t.wall dayMicros).toNat

def microsecond (t : Timestamp) : Nat :=
  t.dayMicro % 1000000

def clock (t : Timestamp) : Nat × Nat × Nat :=
  let seconds := t.dayMicro / 1000000
  (seconds / 3600, seconds / 60 % 60, seconds % 60)

/-- (ofFields date hour minute second micro offset) is the reading of a clock, for fields that
are in range.
-/
def ofFields (date : Date) (hour minute second micro : Nat) (offset : Option Int) : Timestamp :=
  let seconds := hour * 3600 + minute * 60 + second
  { wall := (date.dayNumber - epochDay) * dayMicros + (seconds * 1000000 + micro : Nat), offset }

end Timestamp

def two (n : Nat) : List Char :=
  Text.padded 2 n

def clockText (hour minute second : Nat) : List Char :=
  two hour ++ ':' :: two minute ++ ':' :: two second

/-- (offsetParts mark micros) writes an offset: its sign, hours and minutes, and the seconds and
microseconds when they are not zero, with a mark between hours, minutes and seconds.
-/
def offsetParts (mark : List Char) (micros : Int) : List Char :=
  let n := micros.natAbs
  let seconds := n / 1000000
  let sign := if micros < 0 then '-' else '+'
  let minutes := sign :: two (seconds / 3600) ++ mark ++ two (seconds / 60 % 60)
  let tail :=
    if n % 60000000 = 0 then []
    else
      mark ++ two (seconds % 60)
        ++ (if n % 1000000 = 0 then [] else '.' :: Text.padded 6 (n % 1000000))
  minutes ++ tail

def offsetText (micros : Int) : List Char :=
  offsetParts [':'] micros

/-- (zoneName micros) is the name of a clock that is ahead of UTC by an offset. -/
def zoneName (micros : Int) : List Char :=
  ['U', 'T', 'C'] ++ if micros = 0 then [] else offsetText micros

/-- (t.reading separator) writes what the clock shows: the date and the time, with a fraction of six
digits when it is not zero.
-/
def Timestamp.reading (t : Timestamp) (separator : Char) : List Char :=
  let d := t.date
  let (hour, minute, second) := t.clock
  let fraction := if t.microsecond = 0 then [] else '.' :: Text.padded 6 t.microsecond
  Text.padded 4 d.year ++ '-' :: two d.month ++ '-' :: two d.day
    ++ separator :: clockText hour minute second ++ fraction

/-- (t.iso) writes a timestamp in the extended form, with the offset if there is one. -/
def Timestamp.iso (t : Timestamp) : String :=
  String.ofList (t.reading 'T' ++ (t.offset.map offsetText).getD [])

inductive Amount where
  | whole (n : Int)
  | float (x : Decimal.Binary64)
deriving DecidableEq, Repr

namespace Amount

/-- (amount.micros unit) are the microseconds in an amount of units of so many microseconds. A
float is rounded to the nearest, with ties to even.
-/
def micros (amount : Amount) (unit : Nat) : Except Failure Int :=
  match amount with
  | whole n => .ok (n * unit)
  | float .nan => .error (.badValue .nanToInteger)
  | float (.infinite _) => .error .outOfRange
  | float x => .ok (x.scaledRound unit)

def isPositive : Amount → Bool
  | whole n => 0 < n
  | float x => x.isPositive

def text : Amount → String
  | whole n => Text.decimal n
  | float x => x.text

end Amount

/-- (Timestamp.ofMillisAmount millis) is the timestamp of an amount of milliseconds since the
beginning of 1970.
-/
def Timestamp.ofMillisAmount (millis : Amount) : Except Failure Timestamp := do
  ofInstant (← millis.micros 1000)

def hourMicros : Nat := 3600000000

end DeltaFeed.Time
