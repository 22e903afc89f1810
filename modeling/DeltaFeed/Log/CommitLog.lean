import DeltaFeed.Log.Files
import DeltaFeed.Log.History
import DeltaFeed.Log.Payload
import DeltaFeed.Op

/-! A log that is read from files. Committed files do not change, so the history is read once and
extended as the log grows, and the last files that were read are kept.
-/

namespace DeltaFeed.Log

open Store (Path Tree)

/-- The commit files that are kept, the one used last at the front. -/
abbrev Cache := List (Int × List Value)

/-- (remember size version payloads cache) keeps a file, and drops the one that was used least
recently if there are more than size.
-/
def remember (size : Nat) (version : Int) (payloads : List Value) (cache : Cache) : Cache :=
  ((version, payloads) :: without version cache).take size

structure CommitLog where
  place : Place
  cacheSize : Nat
  defaultProvider : String
  cache : Cache := []
  history : History := {}

namespace CommitLog

def ofBase (settings : Settings) (base : Path) : CommitLog :=
  { place := .ofBase settings base
    cacheSize := settings.cacheSize.toNat
    defaultProvider := settings.defaultProvider }

def basePath (log : CommitLog) : String :=
  log.place.base.text

/-- (log.forget) keeps nothing that was read. -/
def forget (log : CommitLog) : CommitLog :=
  { log with cache := [], history := {} }

def changeHistory (f : History → History) : Op CommitLog Unit :=
  .change fun log => { log with history := f log.history }

/-- (payloads tree version) are the documents in the file of a commit, from the files that are kept
if it is among them.
-/
def payloads (tree : Tree) (version : Int) : Op CommitLog (List Value) := do
  let log ← .current
  let found ←
    match log.cache.lookup version with
    | some found => pure found
    | none => .ofResult (load tree log.place version)
  .change fun log => { log with cache := remember log.cacheSize version found log.cache }
  return found

/-- (rawMillis tree version) is the time of a commit, before it is adjusted: the time that the
commit states, or else the time of modification of its file.
-/
def rawMillis (tree : Tree) (version : Int) : Op CommitLog Int := do
  let stated ← .ofResult (Payload.statedMillis (← payloads tree version))
  match stated with
  | some millis => return millis
  | none =>
    let log ← .current
    .ofResult (modifiedMillis tree log.place version)

/-- (recordMetadata version lines) takes in the metadata that the lines of a version record. -/
def recordMetadata (version : Int) : List Value → Op CommitLog Unit
  | [] => return ()
  | line :: rest => do
    match ← .ofResult (Payload.present line "metaData") with
    | some value =>
      changeHistory (·.announce version)
      let log ← .current
      let metadata ← .ofResult (Payload.metadataOf log.defaultProvider value)
      changeHistory (·.record version metadata)
    | none => pure ()
    recordMetadata version rest

def extend (tree : Tree) (version : Int) : Op CommitLog Unit := do
  let raw ← rawMillis tree version
  let millis := (← .current).history.adjusted raw
  if millis ≠ raw then
    let (v, r, m) := (Text.decimal version, Text.decimal raw, Text.decimal millis)
    .tell .debug .commitLog s!"Adjusting commit timestamp of version {v}: {r} -> {m}"
  changeHistory (·.schedule version millis)
  let timestamp ← .ofResult (Time.Timestamp.ofMillis millis)
  changeHistory (·.commit { version, timestamp })
  recordMetadata version (← payloads tree version)

/-- (resetUnlessFits versions) begins the history anew if it cannot go on in a log with some
versions.
-/
def resetUnlessFits (versions : List Int) : Op CommitLog Unit := do
  let log ← .current
  if !log.history.fits versions then
    let shown := log.place.directory.text
    .tell .debug .commitLog
      s!"Delta log {shown} changed its first version, rebuilding history"
    changeHistory fun _ => {}

/-- (refresh tree) extends the history with the versions that are new. -/
def refresh (tree : Tree) : Op CommitLog Unit := do
  let versions ← .ofResult (listVersions tree (← .current).place)
  resetUnlessFits versions
  let known := (← .current).history.known
  .forEach (versions.dropWhile (· ≤ known)) (extend tree)

/-- (commits tree) are all commits, with times that strictly increase. -/
def commits (tree : Tree) : Op CommitLog (List Commit) := do
  refresh tree
  return (← .current).history.commits

def versions (tree : Tree) : Op CommitLog (List Int) := do
  .ofResult (listVersions tree (← .current).place)

def latest (tree : Tree) : Op CommitLog Int := do
  .ofResult (latestVersion tree (← .current).place)

def actions (tree : Tree) (version : Int) : Op CommitLog (List Action) := do
  .ofResult (Payload.actionsOf (← payloads tree version))

/-- (activeCommit tree time inclusive) is the latest commit before a time, or at it if that is
included.
-/
def activeCommit (tree : Tree) (time : Time.Timestamp) (inclusive : Bool)
    : Op CommitLog Commit := do
  let utc ← .ofResult time.toUtc
  refresh tree
  match (← .current).history.activeAt utc inclusive with
  | some commit => return commit
  | none => .fail .noSuchPosition

def commitAt (tree : Tree) (version : Int) : Op CommitLog Commit := do
  if ((← .current).history.positions.lookup version).isNone then refresh tree
  .ofResult ((← .current).history.commitAt version)

def metadataAt (tree : Tree) (version : Int) : Op CommitLog Metadata := do
  let _ ← commitAt tree version
  .ofResult ((← .current).history.metadataAt version)

def close : Op CommitLog Unit :=
  .change forget

end CommitLog

end DeltaFeed.Log
