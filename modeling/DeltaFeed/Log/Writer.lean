import DeltaFeed.Document.Writer
import DeltaFeed.Log.Files
import DeltaFeed.Log.Payload
import DeltaFeed.Op

/-! Writing of logs: the lines of commit files, and a writer that adds one commit after the other.
-/

namespace DeltaFeed.Log

open Store (Tree)

/-- The schema of a table for which none is given. -/
def standardSchema : Value :=
  .record
    [("type", .text "struct"),
      ("fields", .list
        [column "id" "long" false,
          column "region" "string" true])]
where
  column (name type : String) (nullable : Bool) : Value :=
    .record
      [("name", .text name), ("type", .text type), ("nullable", .bool nullable),
        ("metadata", .record [])]

structure MetadataLine where
  partitionColumns : Value := .null
  name : Value := .null
  provider : Value := .text "parquet"
  schema : Value := .null
  tableId : Value := .text "00000000-0000-0000-0000-000000000000"

def MetadataLine.value (line : MetadataLine) : Except Failure Value := do
  let schemaText ← Document.write (Payload.orElse (some line.schema) standardSchema)
  return .record [("metaData", .record
    [("id", line.tableId), ("name", line.name),
      ("format", .record [("provider", line.provider), ("options", .record [])]),
      ("schemaString", .text schemaText),
      ("partitionColumns", Payload.orElse (some line.partitionColumns) (.list [])),
      ("configuration", .record [])])]

/-- (given key value) is a field, unless its value is null. -/
def given (key : String) (value : Value) : List (String × Value) :=
  match value with
  | .null => []
  | value => [(key, value)]

structure VectorLine where
  pathOrInline : Value := .text r"ab^-aqEH.-t@S}K{vb[*k^"
  storageType : Value := .text "u"
  offset : Value := .int 1
  cardinality : Value := .int 1

def VectorLine.value (line : VectorLine) : Value :=
  .record <|
    [("storageType", line.storageType), ("pathOrInlineDv", line.pathOrInline),
      ("sizeInBytes", .int 36), ("cardinality", line.cardinality)]
    ++ given "offset" line.offset

structure AddLine where
  path : Value
  partitionValues : Value := .null
  size : Value := .int 1024
  numRecords : Value := .int 10
  modificationTime : Value := .int 0
  vector : Value := .null

def AddLine.value (line : AddLine) : Except Failure Value := do
  let stats ←
    match line.numRecords with
    | .null => pure .null
    | count => .text <$> Document.write (.record [("numRecords", count)])
  return .record [("add", .record <|
    [("path", line.path),
      ("partitionValues", Payload.orElse (some line.partitionValues) (.record [])),
      ("size", line.size), ("modificationTime", line.modificationTime),
      ("dataChange", .bool true)]
    ++ given "stats" stats ++ given "deletionVector" line.vector)]

structure RemoveLine where
  path : Value
  partitionValues : Value := .null
  size : Value := .int 1024
  deletionTimestamp : Value := .int 0
  vector : Value := .null

def RemoveLine.value (line : RemoveLine) : Value :=
  .record [("remove", .record <|
    [("path", line.path),
      ("partitionValues", Payload.orElse (some line.partitionValues) (.record [])),
      ("deletionTimestamp", line.deletionTimestamp), ("dataChange", .bool true)]
    ++ given "size" line.size ++ given "deletionVector" line.vector)]

def commitLine (millis : Int) (operation : String) : Value :=
  .record [("commitInfo",
    .record [("timestamp", .int millis), ("operation", .text operation)])]

def writeLines : List Value → Except Failure (List String)
  | [] => .ok []
  | line :: rest => do
    let text ← Document.write line
    return text :: (← writeLines rest)

def contentOf (lines : List Value) : Except Failure String := do
  return "\n".intercalate (← writeLines lines) ++ "\n"

structure LogWriter where
  place : Place
  /-- The version of the next commit. -/
  next : Int := 0
deriving DecidableEq, Repr

namespace LogWriter

/-- (start settings base) begins to write the log of a table; its directory is made. -/
def start (settings : Settings) (base : Store.Path) : Op Tree LogWriter := do
  let place := Place.ofBase settings base
  Tree.makeDirectory place.directory
  return { place }

def store (version : Int) (content : String) (modified : Int) : Op (Tree × LogWriter) Unit := do
  let writer := (← .current).2
  .onFirst (Tree.write (writer.place.file version) content.toUTF8 modified)

structure Written where
  version : Int
  content : String
  /-- The time of modification of the file, in nanoseconds. -/
  modified : Int
deriving DecidableEq, Repr

/-- (commit lines millis operation version) writes a commit, with the next version if none is given.
A time is stated in a line of its own at the beginning, and is that of the file.
-/
def commit (lines : List Value) (millis : Option Int) (operation : String)
    (version : Option Int) : Op (Tree × LogWriter) Written := do
  let version := version.getD (← .current).2.next
  let lines := (millis.map fun m => commitLine m operation).toList ++ lines
  let content ← .ofResult (contentOf lines)
  let modified := 1000000 * millis.getD 0
  store version content modified
  .onSecond (.change fun writer => { writer with next := version + 1 })
  return { version, content, modified }

/-- (writeText version text) writes any text as the file of a commit, and gives its path. -/
def writeText (version : Int) (text : String) : Op (Tree × LogWriter) String := do
  store version text 0
  .onSecond (.change fun writer => { writer with next := max writer.next (version + 1) })
  return ((← .current).2.place.file version).text

end LogWriter

end DeltaFeed.Log
