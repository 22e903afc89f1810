import DeltaFeed.Document.Reader
import DeltaFeed.Order
import DeltaFeed.Settings
import DeltaFeed.Store.Tree
import DeltaFeed.Value

/-! The files of a log: one file for each commit, named by its version with leading zeros, in a
directory below the root of the table. A file has one document on each line that is not blank.
-/

namespace DeltaFeed.Log

open Store (Path Tree)

/-- Where a log is and how its files are named. -/
structure Place where
  base : Path
  directory : Path
  /-- The number of digits in the name of a commit file. -/
  digits : Nat
deriving DecidableEq, Repr

namespace Place

def ofBase (settings : Settings) (base : Path) : Place :=
  { base, directory := base.child settings.logDirectory, digits := settings.fileDigits.toNat }

end Place

def fileName (digits : Nat) (version : Int) : String :=
  String.ofList (Text.signedPadded digits version) ++ ".json"

def Place.file (place : Place) (version : Int) : Path :=
  place.directory.child (fileName place.digits version)

def extension : List Char := ['.', 'j', 's', 'o', 'n']

/-- (stem? digits name) is the part of the name of a commit file that writes its version. -/
def stem? (digits : Nat) (name : String) : Option (List Char) :=
  let text := name.toList
  let stem := text.take (text.length - extension.length)
  if extension.isSuffixOf text && stem.all Text.isDigit && stem.length == digits
      && !stem.isEmpty then some stem
  else none

def readAll : List (List Char) → Except Failure (List Int)
  | [] => .ok []
  | stem :: rest => do
    let version ← Integer.read stem
    return version :: (← readAll rest)

/-- (versionsOf place names) are the versions of the commit files among some names, in order. -/
def versionsOf (place : Place) (names : List String) : Except Failure (List Int) := do
  let versions ← readAll (names.filterMap (stem? place.digits))
  if versions.isEmpty then
    let shown := place.directory.text
    .error (.read .emptyLog s!"No commits found in {shown}" none)
  else return Order.sort (fun a b => decide (a ≤ b)) versions

def listVersions (tree : Tree) (place : Place) : Except Failure (List Int) :=
  let shown := place.directory.text
  match tree.find place.directory with
  | .ok (.directory _) => versionsOf place (tree.names place.directory)
  | .error .other => .error (.storage .other)
  | _ => .error (.read .logRead s!"Delta log directory not found: {shown}" none)

def latestVersion (tree : Tree) (place : Place) : Except Failure Int := do
  match (← listVersions tree place).getLast? with
  | some version => return version
  | none => .error .noSuchPosition

/-- (isLineBlank c) holds of the characters that are dropped from both ends of a line. -/
def isLineBlank (c : Char) : Bool :=
  c == ' ' || c == '\t' || c == '\n' || c == '\r' || c == '\x0b' || c == '\x0c'

/-- (linesOf text) are the lines of a text that are not blank, without blanks at their ends. -/
def linesOf (text : List Char) : List (List Char) :=
  ((text.splitOn '\n').map (Text.trimBy isLineBlank)).filter (!·.isEmpty)

def readLines : List (List Char) → Option (List Value)
  | [] => some []
  | line :: rest => do
    let value ← Document.read (String.ofList line)
    return value :: (← readLines rest)

def payloadsOf (content : ByteArray) : Option (List Value) := do
  readLines (linesOf (← String.fromUTF8? content).toList)

def readPayloads (tree : Tree) (path : Path) : Except Failure (List Value) :=
  match tree.read path with
  | .error fault => .error (.storage fault)
  | .ok content =>
    match payloadsOf content with
    | some payloads => .ok payloads
    | none => .error .malformedDocument

def load (tree : Tree) (place : Place) (version : Int) : Except Failure (List Value) :=
  let path := place.file version
  let shown := path.text
  match tree.find path with
  | .error .other => .error (.storage .other)
  | .error _ =>
    .error (.read .versionNotFound s!"Commit file not found: {shown}" (some version))
  | .ok _ =>
    match readPayloads tree path with
    | .ok payloads => .ok payloads
    | .error cause =>
      let text := cause.text
      .error (.readFrom cause .logRead s!"Failed to read commit file {shown}: {text}"
        (some version))

/-- (modifiedMillis tree place version) is when the file of a commit was modified, in whole
milliseconds.
-/
def modifiedMillis (tree : Tree) (place : Place) (version : Int) : Except Failure Int :=
  let path := place.file version
  match tree.modified path with
  | .ok nanos => .ok (Int.fdiv nanos 1000000)
  | .error fault =>
    let cause := Failure.storage fault
    let (shown, text) := (path.text, cause.text)
    .error (.readFrom cause .logRead s!"Failed to stat commit file {shown}: {text}"
      (some version))

end DeltaFeed.Log
