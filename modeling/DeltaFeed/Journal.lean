import DeltaFeed.Value

/-! The journal: what operations report while they run. An entry has a level and the channel of
the part of the library that it comes from.
-/

namespace DeltaFeed

/-- How important an entry is, least first. -/
inductive Level where
  | debug
  | info
  | warning
  | error
  | critical
deriving DecidableEq, Repr

def Level.rank : Level → Nat
  | debug => 10
  | info => 20
  | warning => 30
  | error => 40
  | critical => 50

inductive Channel where
  | timestamps
  | markers
  | syncSession
  | commitLog
  | projection
  | extraction
  | statistics
  | planning
  | source
  /-- The channel for entries that name none. -/
  | general
  | named (name : String)
deriving DecidableEq, Repr

structure Entry where
  level : Level
  channel : Channel
  message : String
  extra : List (String × Value) := []
  /-- The kind of the failure that the entry reports, if it is attached. -/
  attached : Option String := none
deriving Repr

end DeltaFeed
