import DeltaFeed.Commit

/-! The history of a log as far as it was read: its commits, with times that strictly increase, and
the metadata that they record.
-/

namespace DeltaFeed.Log

structure History where
  commits : List Commit := []
  /-- The times that were given to commits, in milliseconds. -/
  millis : List Int := []
  /-- Where each version is among the commits. -/
  positions : List (Int × Nat) := []
  /-- The versions that record metadata, in order. -/
  metadataVersions : List Int := []
  /-- The metadata that each version records last. -/
  metadata : List (Int × Metadata) := []
deriving DecidableEq, Repr

namespace History

/-- (history.known) is the last version of a history, or one before the first. -/
def known (history : History) : Int :=
  (history.commits.getLast?.map (·.version)).getD (-1)

/-- (history.fits versions) holds if a history can go on in a log with some versions: it begins
with the same version, and its last one is still there.
-/
def fits (history : History) (versions : List Int) : Bool :=
  match history.commits.head?, history.commits.getLast? with
  | some first, some last =>
    versions.head? == some first.version && versions.contains last.version
  | _, _ => true

/-- (history.adjusted millis) is a time after all times before: the given one if it is later, and
else one millisecond after the last.
-/
def adjusted (history : History) (millis : Int) : Int :=
  match history.millis.getLast? with
  | some last => if millis ≤ last then last + 1 else millis
  | none => millis

def schedule (history : History) (version : Int) (millis : Int) : History :=
  { history with
    positions := put version history.commits.length history.positions
    millis := history.millis ++ [millis] }

def commit (history : History) (commit : Commit) : History :=
  { history with commits := history.commits ++ [commit] }

def announce (history : History) (version : Int) : History :=
  { history with metadataVersions := history.metadataVersions ++ [version] }

def record (history : History) (version : Int) (metadata : Metadata) : History :=
  { history with metadata := put version metadata history.metadata }

/-- (history.activeAt time inclusive) is the latest commit before a time, or at it if that is
included. Times before the log lead to the first commit.
-/
def activeAt (history : History) (time : Time.Timestamp) (inclusive : Bool) : Option Commit :=
  let isPast (commit : Commit) : Bool :=
    if inclusive then decide (commit.timestamp ≤ time) else decide (commit.timestamp < time)
  history.commits[(history.commits.takeWhile isPast).length - 1]?

def commitAt (history : History) (version : Int) : Except Failure Commit :=
  match history.positions.lookup version with
  | none =>
    let v := Text.decimal version
    .error (.read .versionNotFound s!"Version {v} is not in the log" (some version))
  | some position =>
    match history.commits[position]? with
    | some commit => .ok commit
    | none => .error .noSuchPosition

def metadataAt (history : History) (version : Int) : Except Failure Metadata :=
  match (history.metadataVersions.takeWhile (· ≤ version)).getLast? with
  | none =>
    .error (.read .logRead "No metaData action found in the log" (some version))
  | some recorded =>
    match history.metadata.lookup recorded with
    | some metadata => .ok metadata
    | none => .error (.missingKey (Text.decimal recorded))

end History

end DeltaFeed.Log
