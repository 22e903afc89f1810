import DeltaFeed.Text.Quoted
import DeltaFeed.Text.Numeral

/-! What can go wrong. Failures of the log, its listing and the state of a sync carry an error
code; the others say what was wrong with a value, a file or a lookup. The wording of a failure
is one function of its cause.
-/

namespace DeltaFeed

/-- A class of failures, with the component that reports it. -/
structure ErrorCode where
  component : String
  id : String
  description : String
deriving DecidableEq, Repr, Inhabited

namespace ErrorCode

/-- (make component status serial description) is the code numbered serial among those of a
component with a status.
-/
def make (component status serial description : String) : ErrorCode :=
  { component, id := s!"Conversion-{component}-{status}-{serial}", description }

def text (code : ErrorCode) : String :=
  s!"{code.id}: {code.description}"

def shown (code : ErrorCode) : String :=
  let id := Text.quoted code.id
  s!"ErrorCode({id})"

def logRead : ErrorCode := make "Read" "500" "00" "Transaction log read error"

def versionNotFound : ErrorCode := make "Read" "404" "00" "Log version not found"

def fileIteration : ErrorCode :=
  make "Read" "500" "01" "Failed to iterate through Delta data files"

def unsupportedFormat : ErrorCode := make "Read" "422" "00" "Unsupported data file format"

def emptyLog : ErrorCode := make "Read" "404" "01" "Transaction log has no commits"

def syncNotInitialized : ErrorCode :=
  make "State" "409" "00"
    "Incremental sync state is not initialized; call get_commits_backlog first"

def notInBacklog : ErrorCode :=
  make "State" "400" "00" "Version is not part of the current commits backlog"

def sourceClosed : ErrorCode := make "State" "409" "01" "Conversion source is closed"

def unpairedVector : ErrorCode :=
  make "Reconciliation" "200" "00"
    "No Remove action found for a data file with an added deletion vector"

def reading : List (String × ErrorCode) :=
  [("LOG_READ_ERROR", logRead), ("VERSION_NOT_FOUND", versionNotFound),
    ("DATA_FILE_ITERATION_ERROR", fileIteration),
    ("UNSUPPORTED_FILE_FORMAT", unsupportedFormat), ("EMPTY_LOG_ERROR", emptyLog)]

def stateful : List (String × ErrorCode) :=
  [("SYNC_STATE_NOT_INITIALIZED", syncNotInitialized),
    ("VERSION_NOT_IN_BACKLOG", notInBacklog), ("SOURCE_CLOSED", sourceClosed)]

/-- The codes of inconsistencies that are recorded and not fatal, by name. -/
def reconciliation : List (String × ErrorCode) :=
  [("RECONCILIATION_ANOMALY", unpairedVector)]

def all : List (String × ErrorCode) :=
  reading ++ stateful ++ reconciliation

end ErrorCode

inductive Family where
  | general
  | read
  | state
deriving DecidableEq, Repr

structure Fault where
  family : Family
  code : ErrorCode
  detail : String
  version : Option Int
deriving DecidableEq, Repr

namespace Fault

/-- (make family code detail version) describes an occurrence. An absent or empty detail is
replaced by the description of the code; a failed read that is tied to a version names it.
-/
def make (family : Family) (code : ErrorCode) (detail : Option String)
    (version : Option Int) : Fault :=
  let stated := detail.getD ""
  let stated := if stated.isEmpty then code.description else stated
  match family, version with
  | .read, some v =>
    { family, code, version, detail := s!"{stated} (version={Text.decimal v})" }
  | _, _ => { family, code, version := none, detail := stated }

def message (fault : Fault) : String :=
  s!"{fault.code.id}: {fault.detail}"

end Fault

inductive BadValue where
  /-- A text that is no instant. -/
  | notIso (text : String)
  | month
  | day
  | hour
  | minute
  | second
  | year (year : Nat)
  /-- An offset of a day or more, in microseconds. -/
  | offset (micros : Int)
  | notInteger (text : String)
  | tooManyDigits (count : Nat)
  | notFloat (text : String)
  | nanToInteger
  | fileFormat (name : String)
  | enumeratorRequired
  | basePathRequired
  /-- A path with a null character. -/
  | nullInPath
  /-- A template that cannot be filled in. -/
  | badTemplate (reason : String)
  /-- A reason that a listing gives. -/
  | listing (reason : String)
deriving DecidableEq, Repr

namespace BadValue

def dayMicros : Int := 86400000000

/-- (span micros) writes a span of time by its days, seconds and microseconds. -/
def span (micros : Int) : String :=
  let days := Int.fdiv micros dayMicros
  let rest := Int.fmod micros dayMicros
  let parts := [("days", days), ("seconds", rest / 1000000), ("microseconds", rest % 1000000)]
  let shown := parts.filterMap fun (name, n) =>
    if n = 0 then none else some (name ++ "=" ++ Text.decimal n)
  let body := if shown.isEmpty then "0" else ", ".intercalate shown
  s!"datetime.timedelta({body})"

def message : BadValue → String
  | notIso text =>
    let shown := Text.quoted text
    s!"Invalid isoformat string: {shown}"
  | month => "month must be in 1..12"
  | day => "day is out of range for month"
  | hour => "hour must be in 0..23"
  | minute => "minute must be in 0..59"
  | second => "second must be in 0..59"
  | year n => s!"year {n} is out of range"
  | offset micros =>
    let shown := span micros
    "offset must be a timedelta strictly between -timedelta(hours=24) and "
      ++ s!"timedelta(hours=24), not {shown}."
  | notInteger text =>
    let shown := String.ofList ((Text.quoted text).toList.take 200)
    s!"invalid literal for int() with base 10: {shown}"
  | tooManyDigits count =>
    "Exceeds the limit (4300 digits) for integer string conversion: "
      ++ s!"value has {count} digits; use sys.set_int_max_str_digits() to increase the limit"
  | notFloat text =>
    let shown := Text.quoted text
    s!"could not convert string to float: {shown}"
  | nanToInteger => "cannot convert float NaN to integer"
  | fileFormat name =>
    let shown := Text.quoted name
    s!"{shown} is not a valid FileFormat"
  | enumeratorRequired =>
    "file_enumerator is required when log_reader cannot enumerate data files"
  | basePathRequired => "base_path is required for this log reader"
  | nullInPath => "embedded null byte"
  | badTemplate reason => reason
  | listing reason => reason

end BadValue

inductive IssueKind where
  | missing
  | stringType
  | intType
  | intParsing
  | intParsingSize
  | intFromFloat
  | finiteNumber
  | greaterThanEqual
  | boolType
  | boolParsing
  | recordType
  | listType
  | datetimeType
  | enumValue
  | literal
  | modelType
  | modelAttributesType
  | tagNotFound
  | tagInvalid
  | valueError
  | frozenInstance
deriving DecidableEq, Repr

structure Issue where
  place : List String
  kind : IssueKind
deriving DecidableEq, Repr

inductive StorageFault where
  | notFound
  | isDirectory
  | notDirectory
  | occupied
  /-- More directories are missing than are made at once. -/
  | tooDeep
  | other
deriving DecidableEq, Repr

inductive Failure where
  | fault (fault : Fault)
  /-- A coded failure with the failure that led to it. -/
  | wrapped (fault : Fault) (cause : Failure)
  /-- Data that do not make a model. -/
  | invalid (issues : List Issue)
  | badValue (reason : BadValue)
  /-- A value of a kind that cannot be an instant. -/
  | unsupportedInstant (kind : String)
  /-- A key that is not there, as it is shown. -/
  | missingKey (key : String)
  /-- A number, an instant or a span of time that cannot be represented. -/
  | outOfRange
  /-- A text or a list that does not fit into memory. -/
  | tooLarge
  /-- A value that does not have the member asked of it. -/
  | noSuchMember
  /-- A value of the wrong type for an operation. -/
  | wrongType
  /-- A position past the end of a list. -/
  | noSuchPosition
  | malformedDocument
  /-- A value that cannot be written as a document. -/
  | unwritable
  | storage (kind : StorageFault)
deriving DecidableEq, Repr

namespace Failure

/-- The text that stands in messages for a failure whose own wording is not kept. -/
def unworded : String := "<cause>"

/-- (failure.text) is the wording of a failure inside other messages. -/
def text : Failure → String
  | fault f => f.message
  | wrapped f _ => f.message
  | badValue reason => reason.message
  | missingKey key => key
  | unsupportedInstant kind => s!"Unsupported instant type: {kind}"
  | _ => unworded

/-- (failure.causes) are the failures that led to a failure, the nearest first. -/
def causes : Failure → List Failure
  | wrapped _ cause => cause :: cause.causes
  | _ => []

def read (code : ErrorCode) (detail : String) (version : Option Int) : Failure :=
  .fault (.make .read code (some detail) version)

def readFrom (cause : Failure) (code : ErrorCode) (detail : String) (version : Option Int)
    : Failure :=
  .wrapped (.make .read code (some detail) version) cause

def state (code : ErrorCode) (detail : String) : Failure :=
  .fault (.make .state code (some detail) none)

end Failure

end DeltaFeed
