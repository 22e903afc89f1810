import DeltaFeed.Feed.Source
import DeltaFeed.Log.Writer

/-! A workspace: a store of files with the logs, sources and sessions that are open on it. Logs and
sources have numbers, so that each keeps what it has when its name goes to another one.
-/

namespace DeltaFeed

open Store (Path Tree)
open Log (CommitLog MemoryLog FixedListing LogWriter Reader Lister)
open Feed (Source Session Identity Phase)

inductive LogId where
  | file (id : Nat)
  | memory (id : Nat)
deriving DecidableEq, Repr

structure OpenSource where
  log : LogId
  /-- The listing that stands in for that of the log. -/
  listing : Option Nat
  identity : Identity
  phase : Phase := .fresh

structure Workspace where
  /-- The root of the table that is meant if no other is named. -/
  base : String
  settings : Settings := {}
  tree : Tree := {}
  /-- The number of the next log, listing or source. -/
  serial : Nat := 0
  logs : List (Nat × CommitLog) := []
  memories : List (Nat × MemoryLog) := []
  listings : List (Nat × FixedListing) := []
  logNames : List (String × Nat) := []
  sources : List (Nat × OpenSource) := []
  sourceNames : List (String × Nat) := []
  sessions : List (String × (LogId × Session)) := []
  lastListing : Option Nat := none
  writer : Option LogWriter := none

namespace Workspace

variable {α : Type}

def found (name : String) (entries : List (String × α)) : Op Workspace α :=
  match entries.lookup name with
  | some entry => return entry
  | none => .fail (.missingKey (Text.quoted name))

def freshId : Op Workspace Nat := do
  let id := (← .current).serial
  .change fun w => { w with serial := id + 1 }
  return id

def log (w : Workspace) (id : Nat) : CommitLog :=
  (w.logs.lookup id).getD (.ofBase w.settings (.ofText ""))

def onLog (id : Nat) (op : Tree → Op CommitLog α) : Op Workspace α := do
  let tree := (← .current).tree
  .within (log · id) (fun log w => { w with logs := put id log w.logs }) (op tree)

def onMemory (id : Nat) (op : Op MemoryLog α) : Op Workspace α :=
  .within (fun w => (w.memories.lookup id).getD { latest := 0 })
    (fun log w => { w with memories := put id log w.memories }) op

def reader (id : LogId) : Reader Workspace :=
  match id with
  | .file id =>
    { actions := fun version => onLog id fun tree => CommitLog.actions tree version
      activeCommit := fun time inclusive =>
        onLog id fun tree => CommitLog.activeCommit tree time inclusive
      latest := onLog id CommitLog.latest
      commitAt := fun version => onLog id fun tree => CommitLog.commitAt tree version
      metadataAt := fun version => onLog id fun tree => CommitLog.metadataAt tree version
      close := onLog id fun _ => CommitLog.close }
  | .memory id =>
    { actions := fun version => onMemory id (MemoryLog.reader.actions version)
      activeCommit := fun time inclusive =>
        onMemory id (MemoryLog.reader.activeCommit time inclusive)
      latest := onMemory id MemoryLog.reader.latest
      commitAt := fun version => onMemory id (MemoryLog.reader.commitAt version)
      metadataAt := fun version => onMemory id (MemoryLog.reader.metadataAt version)
      close := onMemory id MemoryLog.reader.close }

/-- (lister log listing) lists files from a fixed listing if there is one, and else from the log. -/
def lister (log : LogId) (listing : Option Nat) : Lister Workspace := fun version table =>
  match listing, log with
  | some id, _ =>
    .within (fun w => (w.listings.lookup id).getD { pending := [] })
      (fun listing w => { w with listings := put id listing w.listings }) FixedListing.list
  | none, .file id => onLog id fun tree => CommitLog.files tree version table
  | none, .memory _ => .fail (.badValue .enumeratorRequired)

def addLog (base : String) : Op Workspace Nat := do
  let id ← freshId
  .change fun w =>
    { w with logs := put id (.ofBase w.settings (.ofLocation base)) w.logs }
  return id

def openLog (name : String) (base : Option String) : Op Workspace CommitLog := do
  let id ← addLog (base.getD (← .current).base)
  .change fun w => { w with logNames := put name id w.logNames }
  return (← .current).log id

def named (name : String) : Op Workspace Nat := do
  found name (← .current).logNames

def addMemory (log : MemoryLog) : Op Workspace LogId := do
  let id ← freshId
  .change fun w => { w with memories := put id log w.memories }
  return .memory id

def addListing (listing : FixedListing) : Op Workspace Nat := do
  let id ← freshId
  .change fun w =>
    { w with listings := put id listing w.listings, lastListing := some id }
  return id

/-- (w.listingClosed) holds if the listing that was taken in last was closed. -/
def listingClosed (w : Workspace) : Bool :=
  ((w.lastListing.bind fun id => w.listings.lookup id).map (·.closed)).getD false

def enter (name : String) (source : OpenSource) : Op Workspace Unit := do
  let id ← freshId
  .change fun w =>
    { w with sources := put id source w.sources, sourceNames := put name id w.sourceNames }

def openSource (name : String) (base tableName : Option String) : Op Workspace String := do
  let id ← addLog (base.getD (← .current).base)
  let basePath := ((← .current).log id).basePath
  enter name { log := .file id, listing := none, identity := { basePath, tableName } }
  return basePath

/-- (addSource name log listing base tableName) opens a source over a log. A log in memory has no
files to list, and a source needs the root of its table.
-/
def addSource (name : String) (log : LogId) (listing : Option Nat)
    (base tableName : Option String) : Op Workspace String := do
  match log, listing with
  | .memory _, none => .fail (.badValue .enumeratorRequired)
  | _, _ => pure ()
  match base with
  | none => .fail (.badValue .basePathRequired)
  | some basePath =>
    enter name { log, listing, identity := { basePath, tableName } }
    return basePath

def sourceNamed (name : String) : Op Workspace Nat := do
  found name (← .current).sourceNames

def source (w : Workspace) (id : Nat) : OpenSource :=
  (w.sources.lookup id).getD
    { log := .file 0, listing := none, identity := { basePath := "", tableName := none } }

/-- (w.phases) are the names of the sources, each with how far its source is. -/
def phases (w : Workspace) : List (String × Phase) :=
  w.sourceNames.map fun (name, id) => (name, (w.source id).phase)

def onSource (id : Nat) (op : Source Workspace → Op (Workspace × Phase) α) : Op Workspace α := do
  let entry := (← .current).source id
  let source : Source Workspace :=
    { reader := reader entry.log
      lister := lister entry.log entry.listing
      identity := entry.identity }
  .within (fun w => (w, entry.phase))
    (fun both _ =>
      { both.1 with sources := put id { entry with phase := both.2 } both.1.sources })
    (op source)

/-- (during id op) runs an operation, and closes a source at its end, also if it failed. -/
def during (id : Nat) (op : Op Workspace α) : Op Workspace α := do
  let result ← .attempt op
  onSource id fun source => source.close
  .ofResult result

/-- (plan name log instant) plans a sync and keeps its session under a name. -/
def plan (name : String) (log : LogId) (instant : Value) : Op Workspace Session := do
  let session ← Feed.plan (reader log) instant
  .change fun w => { w with sessions := put name (log, session) w.sessions }
  return session

/-- (sessionActions name version) are the actions of a version of a session, and the session after
that.
-/
def sessionActions (name : String) (version : Int) : Op Workspace (List Action × Session) := do
  let (id, session) ← found name (← .current).sessions
  let actions ← .within (fun w => (w, session))
    (fun both _ => { both.1 with sessions := put name (id, both.2) both.1.sessions })
    (Session.actions (reader id) version)
  let (_, session) ← found name (← .current).sessions
  return (actions, session)

def onTree (op : Op Tree α) : Op Workspace α :=
  .within (·.tree) (fun tree w => { w with tree }) op

/-- (onWriter op) runs an operation of the writer of the log, which is made when it is needed first.
-/
def onWriter (op : Op (Tree × LogWriter) α) : Op Workspace α := do
  let w ← .current
  let writer ←
    match w.writer with
    | some writer => pure writer
    | none => onTree (LogWriter.start w.settings (.ofText w.base))
  .change fun w => { w with writer := some writer }
  .within (fun w => (w.tree, writer))
    (fun both w => { w with tree := both.1, writer := some both.2 }) op

def nextVersion (w : Workspace) : Int :=
  (w.writer.map (·.next)).getD 0

end Workspace

end DeltaFeed
