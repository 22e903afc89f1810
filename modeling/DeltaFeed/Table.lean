import DeltaFeed.Action
import DeltaFeed.Commit

/-! Tables as of a version: their definition, their data files, the files that a version changed,
and the anomalies that were found on the way.
-/

namespace DeltaFeed

inductive FileFormat where
  | parquet
  | orc
  | avro
deriving DecidableEq, Repr

namespace FileFormat

def name : FileFormat → String
  | parquet => "parquet"
  | orc => "orc"
  | avro => "avro"

def ofName? (name : String) : Option FileFormat :=
  [parquet, orc, avro].find? fun format => format.name == name

end FileFormat

structure DataFile where
  physicalPath : String
  fileFormat : FileFormat := .parquet
  partitionValues : PartitionValues := []
  sizeInBytes : Int := 0
  recordCount : Int := 0
  lastModified : Option Int := none
  vectorReference : Option String := none
deriving DecidableEq, Repr

/-- The data files with the same partition values. -/
structure FileGroup where
  partitionValues : PartitionValues := []
  files : List DataFile := []
deriving DecidableEq, Repr

structure Table where
  name : String
  tableFormat : String := "DELTA"
  basePath : String
  version : Int
  readSchema : Option (List (String × Value)) := none
  partitionFields : List String := []
  fileFormat : FileFormat := .parquet
  latestCommitTime : Time.Timestamp
deriving Repr

structure Snapshot where
  table : Table
  groups : List FileGroup := []
  sourceIdentifier : String
deriving Repr

def Snapshot.files (snapshot : Snapshot) : List DataFile :=
  snapshot.groups.flatMap (·.files)

/-- The files that a version added and removed, by their physical path. -/
structure FilesDiff where
  added : List (String × DataFile) := []
  removed : List (String × DataFile) := []
deriving DecidableEq, Repr

def FilesDiff.isEmpty (diff : FilesDiff) : Bool :=
  diff.added.isEmpty && diff.removed.isEmpty

/-- A deletion vector that was added to a file without the removal of its earlier entry. -/
structure Anomaly where
  version : Int
  physicalPath : String
  vectorReference : Option String := none
  errorCode : String
deriving DecidableEq, Repr

structure TableChange where
  table : Table
  diff : FilesDiff
  sourceIdentifier : String
  anomalies : List Anomaly := []
deriving Repr

namespace Schema

def asFormat (value : Value) : Checked FileFormat :=
  match value with
  | .text s => ((FileFormat.ofName? s).map .good).getD (.fault .enumValue)
  | _ => .fault .enumValue

def asFields (value : Value) : Checked (List (String × Value)) :=
  asEntries .good value

def asDataFile (value : Value) : Checked DataFile :=
  asModel value fun fields =>
    DataFile.mk
      <$> required fields "physical_path" asText
      <*> optional fields "file_format" .parquet asFormat
      <*> optional fields "partition_values" [] (asEntries (orNull asText))
      <*> optional fields "file_size_bytes" 0 asInt
      <*> optional fields "record_count" 0 asInt
      <*> optional fields "last_modified" none (orNull asInt)
      <*> optional fields "deletion_vector_ref" none (orNull asText)

def asFileGroup (value : Value) : Checked FileGroup :=
  asModel value fun fields =>
    FileGroup.mk
      <$> optional fields "partition_values" [] (asEntries (orNull asText))
      <*> optional fields "files" [] (asItems asDataFile)

def asTable (value : Value) : Checked Table :=
  asModel value fun fields =>
    Table.mk
      <$> required fields "name" asText
      <*> optional fields "table_format" "DELTA" asText
      <*> required fields "base_path" asText
      <*> required fields "version" asInt
      <*> optional fields "read_schema" none (orNull asFields)
      <*> optional fields "partition_fields" [] (asItems asText)
      <*> optional fields "file_format" .parquet asFormat
      <*> required fields "latest_commit_time" asMoment

def asSnapshot (value : Value) : Checked Snapshot :=
  asModel value fun fields =>
    Snapshot.mk
      <$> required fields "table" asTable
      <*> optional fields "partitioned_data_files" [] (asItems asFileGroup)
      <*> required fields "source_identifier" asText

def asFilesDiff (value : Value) : Checked FilesDiff :=
  asModel value fun fields =>
    FilesDiff.mk
      <$> optional fields "added" [] (asEntries asDataFile)
      <*> optional fields "removed" [] (asEntries asDataFile)

def asAnomaly (value : Value) : Checked Anomaly :=
  asModel value fun fields =>
    Anomaly.mk
      <$> required fields "version" asInt
      <*> required fields "physical_path" asText
      <*> optional fields "deletion_vector_ref" none (orNull asText)
      <*> required fields "error_code" asText

def asTableChange (value : Value) : Checked TableChange :=
  asModel value fun fields =>
    TableChange.mk
      <$> required fields "table_as_of_change" asTable
      <*> required fields "files_diff" asFilesDiff
      <*> required fields "source_identifier" asText
      <*> optional fields "anomalies" [] (asItems asAnomaly)

end Schema

end DeltaFeed
