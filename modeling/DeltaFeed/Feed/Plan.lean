import DeltaFeed.Feed.Session
import DeltaFeed.Marker

/-! Planning of an incremental sync. The instant of the last sync leads to the latest commit at or
before it, and the sync goes on with the version after that one.
-/

namespace DeltaFeed.Feed

open Log (Reader)

variable {ρ : Type}

/-- (plan reader instant) is the session for all that came after an instant. -/
def plan (reader : Reader ρ) (instant : Value) : Op ρ Session := do
  let utc ← .ofResult (Marker.utcOf instant)
  let commit ← reader.activeCommit utc true
  let session ← Session.create reader (commit.version + 1)
  let (t, v, pending) := (utc.iso, Text.decimal commit.version, session.pending)
  .tell .info .planning
    s!"Last sync instant {t} resolved to version {v}; {pending} commits to process"
  return session

/-- (isSafeFrom reader instant) holds if a sync that goes on from an instant misses nothing:
there is a commit at or before it. Each commit says by itself which files it adds and removes,
so nothing else is needed.
-/
def isSafeFrom (reader : Reader ρ) (instant : Value) : Op ρ Bool := do
  let utc ← .ofResult (Marker.utcOf instant)
  let commit ← reader.activeCommit utc true
  return decide (commit.timestamp ≤ utc)

end DeltaFeed.Feed
