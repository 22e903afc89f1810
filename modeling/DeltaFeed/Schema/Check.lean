import DeltaFeed.Value
import DeltaFeed.Failure
import DeltaFeed.Schema.Numeral

/-! Checks that make typed data of loosely typed values. A check of several parts reports what is
wrong with each of them, not only with the first.
-/

namespace DeltaFeed

/-- What a check ends with: data, or everything that is wrong. -/
inductive Checked (α : Type) where
  | good (a : α)
  | bad (issues : List Issue)
deriving Repr

namespace Checked

variable {α β : Type}

/-- (fault kind) is a check that found one thing wrong with the whole value. -/
def fault (kind : IssueKind) : Checked α :=
  bad [{ place := [], kind }]

/-- (apply f a) applies the data of one check to that of another; the issues of both count. -/
def apply (f : Checked (α → β)) (a : Unit → Checked α) : Checked β :=
  match f, a () with
  | good f, good a => good (f a)
  | good _, bad issues => bad issues
  | bad issues, good _ => bad issues
  | bad issues, bad more => bad (issues ++ more)

instance : Applicative Checked where
  pure := good
  seq := apply

/-- (checked.within place) moves the issues below a place. -/
def within (checked : Checked α) (place : String) : Checked α :=
  match checked with
  | good a => good a
  | bad issues => bad (issues.map fun issue => { issue with place := place :: issue.place })

/-- (checked.ensure p kind) demands more of data that are good so far. -/
def ensure (checked : Checked α) (p : α → Bool) (kind : IssueKind) : Checked α :=
  match checked with
  | good a => if p a then good a else fault kind
  | bad issues => bad issues

def toResult (checked : Checked α) : Except Failure α :=
  match checked with
  | good a => .ok a
  | bad issues => .error (.invalid issues)

@[simp] theorem pure_eq_good (a : α)
    : (pure a : Checked α) = good a := rfl

@[simp] theorem map_good (f : α → β) (a : α)
    : f <$> (good a : Checked α) = good (f a) := rfl

@[simp] theorem good_seq (f : α → β) (checked : Checked α)
    : (good f <*> checked) = f <$> checked := by
  cases checked <;> rfl

@[simp] theorem toResult_good (a : α)
    : (good a).toResult = .ok a := rfl

@[simp] theorem toResult_bad (issues : List Issue)
    : (bad issues : Checked α).toResult = .error (.invalid issues) := rfl

end Checked

namespace Schema

variable {α : Type}

def asText (value : Value) : Checked String :=
  match value with
  | .text s => .good s
  | _ => .fault .stringType

/-- (asInt value) takes integers, truth values as 0 and 1, whole floats below 2^63, and texts of
integers.
-/
def asInt (value : Value) : Checked Int :=
  match value with
  | .int n => .good n
  | .bool b => .good (if b then 1 else 0)
  | .float x =>
    if !x.isFinite then .fault .finiteNumber
    else
      match x.whole? with
      | none => .fault .intFromFloat
      | some n => if x.magnitudeBelow (Nat.pow 2 63) then .good n else .fault .intParsingSize
  | .text s =>
    if isTooLong s.toList then .fault .intParsingSize
    else ((readInteger? s.toList).map .good).getD (.fault .intParsing)
  | _ => .fault .intType

def truthTexts : List (String × Bool) :=
  [("true", true), ("t", true), ("yes", true), ("y", true), ("on", true), ("1", true),
    ("false", false), ("f", false), ("no", false), ("n", false), ("off", false), ("0", false)]

def truthOf (n : Int) : Option Bool :=
  if n = 0 then some false else if n = 1 then some true else none

/-- (asBool value) takes truth values, the numbers 0 and 1, and the texts of truth values in any
case. Whole numbers between -2^63 and 2^63 are read before they are refused; other numbers are
not.
-/
def asBool (value : Value) : Checked Bool :=
  match value with
  | .bool b => .good b
  | .int n =>
    if -(Nat.pow 2 63 : Nat) ≤ n && n < (Nat.pow 2 63 : Nat) then ofWhole n else .fault .boolType
  | .float x =>
    match x.whole? with
    | some n => if x.magnitudeBelow (Nat.pow 2 63) then ofWhole n else .fault .boolType
    | none => .fault .boolType
  | .text s => ((truthTexts.lookup s.toLower).map .good).getD (.fault .boolParsing)
  | _ => .fault .boolType
where
  ofWhole (n : Int) : Checked Bool := ((truthOf n).map .good).getD (.fault .boolParsing)

def asMoment (value : Value) : Checked Time.Timestamp :=
  match value with
  | .moment t => .good t
  | _ => .fault .datetimeType

/-- (orNull check value) takes what check takes, and null. -/
def orNull (check : Value → Checked α) (value : Value) : Checked (Option α) :=
  match value with
  | .null => .good none
  | value => some <$> check value

/-- (asItems check value) takes lists of what check takes. What tells the instant of the last sync
counts as a list of one pair of a name and a value.
-/
def asItems (check : Value → Checked α) (value : Value) : Checked (List α) :=
  match value with
  | .list items => go 0 items
  | .lastSync t => go 0 [.list [.text lastSyncName, .moment t]]
  | _ => .fault .listType
where
  go (index : Nat) : List Value → Checked (List α)
    | [] => .good []
    | item :: rest =>
      List.cons <$> (check item).within (Text.decimal index) <*> go (index + 1) rest

/-- (asEntries check value) takes records whose values check takes. -/
def asEntries (check : Value → Checked α) (value : Value) : Checked (List (String × α)) :=
  match value with
  | .record fields => go fields
  | _ => .fault .recordType
where
  go : List (String × Value) → Checked (List (String × α))
    | [] => .good []
    | (key, value) :: rest =>
      (fun a entries => (key, a) :: entries) <$> (check value).within key <*> go rest

def required (fields : List (String × Value)) (key : String) (check : Value → Checked α)
    : Checked α :=
  match fields.lookup key with
  | some value => (check value).within key
  | none => .bad [{ place := [key], kind := .missing }]

/-- (optional fields key default check) is the checked value of a key, or a default value if the
key is not there.
-/
def optional (fields : List (String × Value)) (key : String) (default : α)
    (check : Value → Checked α) : Checked α :=
  match fields.lookup key with
  | some value => (check value).within key
  | none => .good default

def asModel (value : Value) (build : List (String × Value) → Checked α) : Checked α :=
  match value with
  | .record fields => build fields
  | _ => .fault .modelType

end Schema

end DeltaFeed
