import DeltaFeed.File.Conversion
import DeltaFeed.Log.CommitLog

/-! The live files of a table, by replaying the log from its beginning. A file is known by its full
path together with its deletion vector, so that the removal of an entry without a vector does not
drop the entry that has one. In each version removals come before additions.
-/

namespace DeltaFeed.Log

open Store (Tree)

/-- What tells the live files of a table apart. -/
structure FileKey where
  path : String
  vectorReference : Option String
deriving DecidableEq, Repr

def FileKey.of (base : String) (action : Action) : FileKey :=
  { path := Location.full base action.path
    vectorReference := action.deletionVector.map (·.reference) }

/-- The live files with the actions that added them, in the order in which they became live. -/
abbrev LiveFiles := List (FileKey × AddFile)

namespace LiveFiles

def drop (base : String) (live : LiveFiles) (action : Action) : LiveFiles :=
  match action with
  | .remove _ => without (FileKey.of base action) live
  | .add _ => live

def take (base : String) (live : LiveFiles) (action : Action) : LiveFiles :=
  match action with
  | .add file => put (FileKey.of base action) file live
  | .remove _ => live

def replay (base : String) (live : LiveFiles) (actions : List Action) : LiveFiles :=
  actions.foldl (take base) (actions.foldl (drop base) live)

/-- (orderKey file) is what files are listed by: their partition values in the order of the columns,
with the empty text for null, and then their path.
-/
def orderKey (file : AddFile) : List (String × String) × String :=
  let shown := file.partitionValues.map fun (column, value) => (column, value.getD "")
  (Order.sort (Order.pairs Order.texts Order.texts) shown, file.path)

/-- (comesFirst a b) holds if file a is listed before file b, or neither comes first. -/
def comesFirst (a b : AddFile) : Bool :=
  Order.pairs (Order.lists (Order.pairs Order.texts Order.texts)) Order.texts
    (orderKey a) (orderKey b)

/-- (inOrder live) are the actions of the live files in the order of the listing. -/
def inOrder (live : LiveFiles) : List AddFile :=
  Order.sort comesFirst (live.map (·.2))

end LiveFiles

/-- A listing of data files that gives one file at a time. -/
structure Listing where
  context : FileContext
  pending : List AddFile
deriving Repr

namespace Listing

def next : Op Listing (Option DataFile) := do
  let listing ← .current
  match listing.pending with
  | [] => return none
  | file :: rest =>
    let dataFile ← DataFile.convertAdd listing.context file
    .change fun listing => { listing with pending := rest }
    return some dataFile

/-- (takeUpTo n) are the next files of a listing, n at most. -/
def takeUpTo : Nat → Op Listing (List DataFile)
  | 0 => return []
  | n + 1 => do
    match ← next with
    | some file => return file :: (← takeUpTo n)
    | none => return []

def drain : Op Listing (List DataFile) := do
  takeUpTo (← .current).pending.length

def close : Op Listing Unit :=
  .change fun listing => { listing with pending := [] }

end Listing

namespace CommitLog

def replayed (tree : Tree) (live : LiveFiles) : List Int → Op CommitLog LiveFiles
  | [] => return live
  | version :: rest => do
    let fileActions ← actions tree version
    let base := (← .current).basePath
    replayed tree (live.replay base fileActions) rest

/-- (liveFiles tree version) are the live files at a version. The log has to be there from version
0 on.
-/
def liveFiles (tree : Tree) (version : Int) : Op CommitLog LiveFiles := do
  let all ← versions tree
  let past := all.filter (· ≤ version)
  if past.head? ≠ some 0 then
    .fail (.read .logRead
      "Log does not start at version 0; checkpoint replay is not supported" (some version))
  replayed tree [] past

/-- (listing tree version table) lists the data files of a table that are live at a version. -/
def listing (tree : Tree) (version : Int) (table : Table) : Op CommitLog Listing := do
  let live ← liveFiles tree version
  return { context := table.fileContext, pending := live.inOrder }

def files (tree : Tree) (version : Int) (table : Table) : Op CommitLog (List DataFile) := do
  let listing ← listing tree version table
  .onState listing Listing.drain

end CommitLog

end DeltaFeed.Log
