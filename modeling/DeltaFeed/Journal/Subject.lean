import DeltaFeed.Time.Pattern
import DeltaFeed.Value

/-! What the fields of a template reach: arguments, and the members of what was reached before. Each
has a form as it stands by itself, and one as it stands inside others.
-/

namespace DeltaFeed

/-- What a field of a template reaches. -/
inductive Subject where
  | value (v : Value)
  /-- A clock, by the microseconds that it is ahead of UTC. -/
  | zone (micros : Int)
  /-- A span of time, in microseconds. -/
  | span (micros : Int)
  /-- The kind of another one: where it is defined, and its name. -/
  | kind (home name : String)

namespace Subject

def call (name : String) (parts : List (List Char)) : List Char :=
  name.toList ++ '(' :: [',', ' '].intercalate parts ++ [')']

def shownZone (micros : Int) : List Char :=
  if micros = 0 then "datetime.timezone.utc".toList
  else call "datetime.timezone" [(BadValue.span micros).toList]

/-- (shownMoment t) is a timestamp as it stands inside others: its date, its time without seconds
and microseconds that are zero at the end, and its clock.
-/
def shownMoment (t : Time.Timestamp) : List Char :=
  let (hour, minute, second) := t.clock
  let micro := t.microsecond
  let tail := if micro ≠ 0 then [second, micro] else if second ≠ 0 then [second] else []
  let numbers := [t.date.year, t.date.month, t.date.day, hour, minute] ++ tail
  let zone := (t.offset.map fun micros => "tzinfo=".toList ++ shownZone micros).toList
  call "datetime.datetime" (numbers.map (Text.padded 1) ++ zone)

def lastSyncField (t : Time.Timestamp) : List Char :=
  lastSyncName.toList ++ '=' :: shownMoment t

mutual

def shownValue : Value → List Char
  | .null => "None".toList
  | .bool b => (if b then "True" else "False").toList
  | .int n => (Text.decimal n).toList
  | .float x => x.text.toList
  | .text s => (Text.quoted s).toList
  | .list items => '[' :: shownItems items ++ [']']
  | .record fields => '{' :: shownFields fields ++ ['}']
  | .moment t => shownMoment t
  | .lastSync t => call "InstantsForIncrementalSync" [lastSyncField t]

def shownItems : List Value → List Char
  | [] => []
  | [item] => shownValue item
  | item :: rest => shownValue item ++ ',' :: ' ' :: shownItems rest

def shownField : String × Value → List Char
  | (key, v) => (Text.quoted key).toList ++ ':' :: ' ' :: shownValue v

def shownFields : List (String × Value) → List Char
  | [] => []
  | [field] => shownField field
  | field :: rest => shownField field ++ ',' :: ' ' :: shownFields rest

end

def shown : Subject → List Char
  | value v => shownValue v
  | zone micros => shownZone micros
  | span micros => (BadValue.span micros).toList
  | kind home name =>
    let home := if home = "builtins" then "" else home ++ "."
    s!"<class '{home}{name}'>".toList

/-- (plainSpan micros) is a span of time by itself: its days, if it has any, and its hours, minutes
and seconds, with a fraction of six digits when it is not zero.
-/
def plainSpan (micros : Int) : List Char :=
  let days := Int.fdiv micros Time.dayMicros
  let rest := (Int.fmod micros Time.dayMicros).toNat
  let seconds := rest / 1000000
  let unit := if days.natAbs = 1 then " day, " else " days, "
  let lead := if days = 0 then [] else (Text.decimal days ++ unit).toList
  let fraction := if rest % 1000000 = 0 then [] else '.' :: Text.padded 6 (rest % 1000000)
  lead ++ Text.padded 1 (seconds / 3600) ++ ':' :: Time.two (seconds / 60 % 60)
    ++ ':' :: Time.two (seconds % 60) ++ fraction

def plain : Subject → List Char
  | value (.text s) => s.toList
  | value (.moment t) => t.reading ' ' ++ (t.offset.map Time.offsetText).getD []
  | value (.lastSync t) => lastSyncField t
  | zone micros => Time.zoneName micros
  | span micros => plainSpan micros
  | subject => shown subject

def int (n : Int) : Subject :=
  value (.int n)

def extremes (least greatest : Subject) : List (String × Subject) :=
  [("min", least), ("max", greatest)]

/-- The shortest span of time. -/
def resolution : String × Subject :=
  ("resolution", span 1)

def maxDays : Int := 999999999

/-- (ofInt n) are the members of an integer: it is a complex number and a fraction. -/
def ofInt (n : Int) : List (String × Subject) :=
  [("real", int n), ("imag", int 0), ("numerator", int n), ("denominator", int 1)]

def ofMoment (t : Time.Timestamp) : List (String × Subject) :=
  let (hour, minute, second) := t.clock
  let reading (wall : Int) : Subject := value (.moment { wall, offset := none })
  [("year", int t.date.year), ("month", int t.date.month), ("day", int t.date.day),
    ("hour", int hour), ("minute", int minute), ("second", int second),
    ("microsecond", int t.microsecond), ("fold", int 0),
    ("tzinfo", (t.offset.map zone).getD (value .null)), resolution]
  ++ extremes (reading Time.firstInstant) (reading Time.lastInstant)

def ofZone : List (String × Subject) :=
  let bound : Int := 86340000000
  ("utc", zone 0) :: extremes (zone (-bound)) (zone bound)

def ofSpan (micros : Int) : List (String × Subject) :=
  let rest := Int.fmod micros Time.dayMicros
  [("days", int (Int.fdiv micros Time.dayMicros)), ("seconds", int (rest / 1000000)),
    ("microseconds", int (rest % 1000000)), resolution]
  ++ extremes (span (-maxDays * Time.dayMicros)) (span ((maxDays + 1) * Time.dayMicros - 1))

def ofKind (home name : String) : List (String × Subject) :=
  [("__name__", value (.text name)), ("__qualname__", value (.text name)),
    ("__module__", value (.text home))]

def ofLastSync (t : Time.Timestamp) : List (String × Subject) :=
  [(lastSyncName, value (.moment t)), ("__dict__", value (.record [(lastSyncName, .moment t)]))]

/-- (members subject) are the members of a subject that have a form of their own. -/
def members : Subject → List (String × Subject)
  | value (.bool b) => ofInt (if b then 1 else 0)
  | value (.int n) => ofInt n
  | value (.float x) => [("real", value (.float x)), ("imag", value (.float (.signedZero false)))]
  | value (.moment t) => ofMoment t
  | value (.lastSync t) => ofLastSync t
  | value _ => []
  | zone _ => ofZone
  | span micros => ofSpan micros
  | kind home name => ofKind home name

def kindOf : Subject → Subject
  | value (.moment t) => kind "datetime" (Value.moment t).kindName
  | value v => kind "builtins" v.kindName
  | zone _ => kind "datetime" "timezone"
  | span _ => kind "datetime" "timedelta"
  | kind _ _ => kind "builtins" "type"

def member? (subject : Subject) (name : String) : Option Subject :=
  if name = "__class__" then some subject.kindOf else subject.members.lookup name

end Subject

end DeltaFeed
