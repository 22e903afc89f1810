import DeltaFeed.Change
import DeltaFeed.Feed.Plan
import DeltaFeed.Feed.Projection

/-! Sources: what a sync reads a table from. A source is used from its first call until it is
closed, and gives the changes of single commits once a backlog was asked for.
-/

namespace DeltaFeed.Feed

open Log (Reader Lister)

/-- How far a source is in its life. -/
inductive Phase where
  | fresh
  | ready
  /-- A backlog was asked for. -/
  | planned (session : Session)
  | closed
deriving DecidableEq, Repr

structure Source (ρ : Type) where
  reader : Reader ρ
  lister : Lister ρ
  identity : Identity

namespace Source

variable {ρ : Type}

def phase : Op (ρ × Phase) Phase :=
  return (← .current).2

def enter (phase : Phase) : Op (ρ × Phase) Unit :=
  .onSecond (.change fun _ => phase)

def closedFailure (source : Source ρ) : Failure :=
  let base := source.identity.basePath
  .state .sourceClosed s!"Conversion source for {base} is closed"

def unplannedFailure : Failure :=
  .state .syncNotInitialized <| "IncrementalSyncState is not initialized: "
    ++ "get_commits_backlog must be called before per-commit changes"

/-- (source.ensureOpen) begins every call on a source. -/
def ensureOpen (source : Source ρ) : Op (ρ × Phase) Unit := do
  match ← phase with
  | .closed => .fail source.closedFailure
  | .fresh => enter .ready
  | _ => return ()

def tableAt (source : Source ρ) (version : Int) : Op (ρ × Phase) Table := do
  source.ensureOpen
  .onFirst (projectTable source.reader source.identity version)

def currentTable (source : Source ρ) : Op (ρ × Phase) Table := do
  source.ensureOpen
  source.tableAt (← .onFirst source.reader.latest)

def currentSnapshot (source : Source ρ) : Op (ρ × Phase) Snapshot := do
  source.ensureOpen
  let version ← .onFirst source.reader.latest
  let (base, v) := (source.identity.basePath, Text.decimal version)
  .tell .info .source s!"Building snapshot of {base} at version {v}"
  .onFirst (projectSnapshot source.reader source.lister source.identity version (some v))

/-- (source.backlog instant) are the versions committed after an instant, which may be wrapped
as that of the last sync. From now on the session of this backlog is in force.
-/
def backlog (source : Source ρ) (instant : Value) : Op (ρ × Phase) (List Int) := do
  source.ensureOpen
  let instant :=
    match instant with
    | .lastSync t => .moment t
    | instant => instant
  let session ← .onFirst (plan source.reader instant)
  enter (.planned session)
  return session.versions

/-- (source.sessionActions version) are the actions of a version of the backlog. -/
def sessionActions (source : Source ρ) (version : Int) : Op (ρ × Phase) (List Action) := do
  match ← phase with
  | .planned session =>
    .within (fun both => (both.1, session)) (fun inner _ => (inner.1, .planned inner.2))
      (Session.actions source.reader version)
  | _ => .fail unplannedFailure

def change (source : Source ρ) (version : Int) : Op (ρ × Phase) TableChange := do
  source.ensureOpen
  let actions ← source.sessionActions version
  let table ← .onFirst (projectTable source.reader source.identity version)
  Change.extract version table actions

/-- (source.isSafeFrom instant) holds if a sync that goes on from an instant misses nothing. -/
def isSafeFrom (source : Source ρ) (instant : Value) : Op (ρ × Phase) Bool := do
  source.ensureOpen
  .onFirst (Feed.isSafeFrom source.reader instant)

def commitAt (source : Source ρ) (version : Int) : Op (ρ × Phase) Commit := do
  source.ensureOpen
  .onFirst (source.reader.commitAt version)

/-- (source.close) ends the life of a source; a second time nothing happens. -/
def close (source : Source ρ) : Op (ρ × Phase) Unit := do
  if (← phase) = .closed then return ()
  enter .closed
  .onFirst source.reader.close
  let base := source.identity.basePath
  .tell .debug .source s!"Closed conversion source for {base}"

/-- (nextMarker commit) is the marker from which a sync after a commit goes on. -/
def nextMarker (commit : Commit) : Except Failure String :=
  Marker.write commit.timestamp

structure Sync where
  backlog : List Int
  changes : List TableChange
  /-- The marker of the last commit, if there was one. -/
  marker : Option String
deriving Repr

def changes (source : Source ρ) : List Int → Op (ρ × Phase) (List TableChange)
  | [] => return []
  | version :: rest => do
    let change ← source.change version
    return change :: (← source.changes rest)

/-- (source.sync instant) processes all that was committed after an instant. -/
def sync (source : Source ρ) (instant : Value) : Op (ρ × Phase) Sync := do
  let backlog ← source.backlog instant
  let changes ← source.changes backlog
  match backlog.getLast? with
  | none => return { backlog, changes, marker := none }
  | some last =>
    let commit ← source.commitAt last
    let marker ← .ofResult (nextMarker commit)
    return { backlog, changes, marker := some marker }

end Source

end DeltaFeed.Feed
