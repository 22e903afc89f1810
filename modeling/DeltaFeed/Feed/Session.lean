import DeltaFeed.Log.Reader

/-! The session of one incremental sync. It is made for each backlog and replaced as a whole by the
next: it fixes the versions to process when it is made, and keeps the actions that it fetched.
-/

namespace DeltaFeed.Feed

open Log (Reader)

structure Session where
  /-- The first version to process. -/
  start : Int
  /-- The latest version when the session was made. -/
  latest : Int
  /-- The actions of the versions that were fetched. -/
  fetched : List (Int × List Action) := []
deriving DecidableEq, Repr

def maxCount : Nat := 9223372036854775807

def maxListed : Nat := 4294967296

namespace Session

/-- (session.pending) is the number of versions to process. -/
def pending (session : Session) : Nat :=
  (session.latest + 1 - session.start).toNat

def versions (session : Session) : List Int :=
  (List.range session.pending).map fun (i : Nat) => session.start + i

/-- (session.listed) are the versions to process, unless there are too many of them. -/
def listed (session : Session) : Except Failure (List Int) :=
  if maxCount < session.pending then .error .outOfRange
  else if maxListed < session.pending then .error .tooLarge
  else .ok session.versions

def contains (session : Session) (version : Int) : Bool :=
  session.start ≤ version && version ≤ session.latest

def cached (session : Session) : List Int :=
  Order.sort (fun a b => decide (a ≤ b)) (keys session.fetched)

/-- (session.outside version) is the failure of a call for a version that is not to be processed.
-/
def outside (session : Session) (version : Int) : Failure :=
  let (v, start, latest) :=
    (Text.decimal version, Text.decimal session.start, Text.decimal session.latest)
  .state .notInBacklog
    s!"Version {v} not found in the incremental sync state (pending versions {start}..{latest})"

variable {ρ : Type}

/-- (create reader start) is a session up to the version that is the latest now. -/
def create (reader : Reader ρ) (start : Int) : Op ρ Session := do
  let latest ← reader.latest
  let session : Session := { start, latest }
  let versions ← .ofResult session.listed
  let (first, last, pending) := (Text.decimal start, Text.decimal latest, versions.length)
  .tell .info .syncSession
    s!"Incremental sync state created: start={first}, latest={last}, pending={pending}"
  return session

/-- (actions reader version) are the actions of a version to process. The log is read for them until
it succeeds once.
-/
def actions (reader : Reader ρ) (version : Int) : Op (ρ × Session) (List Action) := do
  let session := (← .current).2
  if !session.contains version then .fail (session.outside version)
  match session.fetched.lookup version with
  | some found => return found
  | none =>
    let found ← .onFirst (reader.actions version)
    .onSecond <| .change fun session =>
      { session with fetched := put version found session.fetched }
    return found

end Session

end DeltaFeed.Feed
