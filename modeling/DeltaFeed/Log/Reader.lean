import DeltaFeed.File.Conversion
import DeltaFeed.Log.Replay

/-! What the rest of the library needs of a log, whatever it is read from, and a log in memory.
-/

namespace DeltaFeed.Log

open Store (Tree)

/-- The operations of a log with states in ρ. -/
structure Reader (ρ : Type) where
  /-- The file actions of a version, in order. -/
  actions : Int → Op ρ (List Action)
  /-- The latest commit before a time, or at it if that is included. -/
  activeCommit : Time.Timestamp → Bool → Op ρ Commit
  /-- The latest committed version. -/
  latest : Op ρ Int
  /-- The commit of a version. -/
  commitAt : Int → Op ρ Commit
  /-- The metadata in effect as of a version. -/
  metadataAt : Int → Op ρ Metadata
  /-- Lets go of what was read. -/
  close : Op ρ Unit

/-- A way to list the live data files of a table at a version. -/
abbrev Lister (ρ : Type) := Int → Table → Op ρ (List DataFile)

def CommitLog.reader (tree : Tree) : Reader CommitLog where
  actions := CommitLog.actions tree
  activeCommit := CommitLog.activeCommit tree
  latest := CommitLog.latest tree
  commitAt := CommitLog.commitAt tree
  metadataAt := CommitLog.metadataAt tree
  close := CommitLog.close

/-- A log in memory. All of its commits have the same time. -/
structure MemoryLog where
  latest : Int
  /-- The actions of each version, unchecked. -/
  actions : List (Int × Value) := []
  /-- The versions that were asked for, in order. -/
  fetched : List Int := []

namespace MemoryLog

def fetch (version : Int) : Op MemoryLog (List Action) := do
  .change fun log => { log with fetched := log.fetched ++ [version] }
  match (← .current).actions.lookup version with
  | some actions => .ofResult (Schema.asItems Schema.asAction actions).toResult
  | none => .fail (.fault (.make .read .versionNotFound none (some version)))

def commitAt (version : Int) : Op MemoryLog Commit :=
  if 0 ≤ version then return { version, timestamp := .utc 0 }
  else .fail (.invalid [{ place := ["version"], kind := .greaterThanEqual }])

def reader : Reader MemoryLog where
  actions := fetch
  activeCommit := fun _ _ => do commitAt (← .current).latest
  latest := return (← .current).latest
  commitAt := commitAt
  metadataAt := fun _ => return {}
  close := return ()

end MemoryLog

/-- A listing of files that are given in advance. It may fail at the end. -/
structure FixedListing where
  pending : List DataFile
  failure : Option Failure := none
  closed : Bool := false

/-- All files of a fixed listing, which is closed after that. They are listed once. -/
def FixedListing.list : Op FixedListing (List DataFile) := do
  let listing ← .current
  .change fun listing => { listing with pending := [], closed := true }
  match listing.failure with
  | some failure => .fail failure
  | none => return listing.pending

end DeltaFeed.Log
