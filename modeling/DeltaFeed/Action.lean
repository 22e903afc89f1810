import DeltaFeed.Schema.Check

/-! The file actions of a log: files that a commit adds, files that it removes, and the deletion
vectors that mask rows of a file.
-/

namespace DeltaFeed

/-- A mask of deleted rows, attached to a data file. -/
structure DeletionVector where
  /-- Whether the mask lies at a relative or an absolute path, or inline. -/
  storageType : String
  pathOrInline : String
  offset : Option Int := none
  sizeInBytes : Int := 0
  cardinality : Int := 0
deriving DecidableEq, Repr

/-- (vector.reference) names a mask and its revision. -/
def DeletionVector.reference (vector : DeletionVector) : String :=
  match vector.offset with
  | none => vector.storageType ++ vector.pathOrInline
  | some offset => vector.storageType ++ vector.pathOrInline ++ "@" ++ Text.decimal offset

/-- The values of the partition columns of a file, in order. -/
abbrev PartitionValues := List (String × Option String)

structure AddFile where
  path : String
  partitionValues : PartitionValues := []
  size : Int := 0
  recordCount : Option Int := none
  modificationTime : Option Int := none
  dataChange : Bool := true
  stats : Option String := none
  deletionVector : Option DeletionVector := none
deriving DecidableEq, Repr

structure RemoveFile where
  path : String
  partitionValues : PartitionValues := []
  size : Option Int := none
  deletionTimestamp : Option Int := none
  dataChange : Bool := true
  deletionVector : Option DeletionVector := none
deriving DecidableEq, Repr

inductive Action where
  | add (file : AddFile)
  | remove (file : RemoveFile)
deriving DecidableEq, Repr

namespace Action

def path : Action → String
  | add file => file.path
  | remove file => file.path

def deletionVector : Action → Option DeletionVector
  | add file => file.deletionVector
  | remove file => file.deletionVector

def added? : Action → Option AddFile
  | add file => some file
  | remove _ => none

def removed? : Action → Option RemoveFile
  | add _ => none
  | remove file => some file

end Action

namespace Schema

/-- (twoNames fields logName name) is the name under which a field is found: the name it has in
a log comes before the other.
-/
def twoNames (fields : List (String × Value)) (logName name : String) : String :=
  if (fields.lookup logName).isNone && (fields.lookup name).isSome then name else logName

def asDeletionVector (value : Value) : Checked DeletionVector :=
  asModel value fun fields =>
    let storageType := twoNames fields "storageType" "storage_type"
    let pathOrInline := twoNames fields "pathOrInlineDv" "path_or_inline_dv"
    let sizeInBytes := twoNames fields "sizeInBytes" "size_in_bytes"
    DeletionVector.mk
      <$> required fields storageType asText
      <*> required fields pathOrInline asText
      <*> optional fields "offset" none (orNull asInt)
      <*> optional fields sizeInBytes 0 asInt
      <*> optional fields "cardinality" 0 asInt

def asTag (tag : String) (value : Value) : Checked Unit :=
  match value with
  | .text s => if s = tag then .good () else .fault .literal
  | _ => .fault .literal

def asAdd (value : Value) : Checked AddFile :=
  asModel value fun fields =>
    (fun (_ : Unit) => AddFile.mk)
      <$> optional fields "action_type" () (asTag "add")
      <*> required fields "path" asText
      <*> optional fields "partition_values" [] (asEntries (orNull asText))
      <*> optional fields "size" 0 asInt
      <*> optional fields "record_count" none (orNull asInt)
      <*> optional fields "modification_time" none (orNull asInt)
      <*> optional fields "data_change" true asBool
      <*> optional fields "stats" none (orNull asText)
      <*> optional fields "deletion_vector" none (orNull asDeletionVector)

def asRemove (value : Value) : Checked RemoveFile :=
  asModel value fun fields =>
    (fun (_ : Unit) => RemoveFile.mk)
      <$> optional fields "action_type" () (asTag "remove")
      <*> required fields "path" asText
      <*> optional fields "partition_values" [] (asEntries (orNull asText))
      <*> optional fields "size" none (orNull asInt)
      <*> optional fields "deletion_timestamp" none (orNull asInt)
      <*> optional fields "data_change" true asBool
      <*> optional fields "deletion_vector" none (orNull asDeletionVector)

/-- (asAction value) checks an action; its tag says of which kind it is. What tells the instant of
the last sync has fields, but no tag.
-/
def asAction (value : Value) : Checked Action :=
  match value with
  | .record fields =>
    match fields.lookup "action_type" with
    | none => .fault .tagNotFound
    | some (.text "add") => .add <$> (asAdd value).within "add"
    | some (.text "remove") => .remove <$> (asRemove value).within "remove"
    | some _ => .fault .tagInvalid
  | .lastSync _ => .fault .tagNotFound
  | _ => .fault .modelAttributesType

end Schema

end DeltaFeed
