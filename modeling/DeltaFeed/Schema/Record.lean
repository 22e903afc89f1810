import DeltaFeed.Table

/-! Typed data as loosely typed values: the records that the checks of each type take. Only the
files that a version changed have a form of their own, since their order counts.
-/

namespace DeltaFeed

namespace Value

def ofOption {α : Type} (encode : α → Value) (a : Option α) : Value :=
  (a.map encode).getD .null

def ofList {α : Type} (encode : α → Value) (items : List α) : Value :=
  .list (items.map encode)

def ofPartitionValues (values : PartitionValues) : Value :=
  .record (values.map fun (column, value) => (column, ofOption .text value))

def ofVector (vector : DeletionVector) : Value :=
  .record
    [("storage_type", .text vector.storageType), ("path_or_inline_dv", .text vector.pathOrInline),
      ("offset", ofOption .int vector.offset), ("size_in_bytes", .int vector.sizeInBytes),
      ("cardinality", .int vector.cardinality)]

def ofAdd (file : AddFile) : Value :=
  .record
    [("action_type", .text "add"), ("path", .text file.path),
      ("partition_values", ofPartitionValues file.partitionValues), ("size", .int file.size),
      ("record_count", ofOption .int file.recordCount),
      ("modification_time", ofOption .int file.modificationTime),
      ("data_change", .bool file.dataChange), ("stats", ofOption .text file.stats),
      ("deletion_vector", ofOption ofVector file.deletionVector)]

def ofRemove (file : RemoveFile) : Value :=
  .record
    [("action_type", .text "remove"), ("path", .text file.path),
      ("partition_values", ofPartitionValues file.partitionValues),
      ("size", ofOption .int file.size),
      ("deletion_timestamp", ofOption .int file.deletionTimestamp),
      ("data_change", .bool file.dataChange),
      ("deletion_vector", ofOption ofVector file.deletionVector)]

def ofAction (action : Action) : Value :=
  match action with
  | .add file => ofAdd file
  | .remove file => ofRemove file

def ofCommit (commit : Commit) : Value :=
  .record [("version", .int commit.version), ("timestamp", .moment commit.timestamp)]

def ofMetadata (metadata : Metadata) : Value :=
  .record
    [("table_id", ofOption .text metadata.tableId), ("name", ofOption .text metadata.name),
      ("schema_string", ofOption .text metadata.schemaText),
      ("partition_columns", ofList .text metadata.partitionColumns),
      ("format_provider", .text metadata.formatProvider),
      ("configuration", .record (metadata.configuration.map fun (k, v) => (k, .text v)))]

def ofBacklog (versions : List Int) : Value :=
  .record [("commits_to_process", ofList .int versions)]

def ofDataFile (file : DataFile) : Value :=
  .record
    [("physical_path", .text file.physicalPath), ("file_format", .text file.fileFormat.name),
      ("partition_values", ofPartitionValues file.partitionValues),
      ("file_size_bytes", .int file.sizeInBytes), ("record_count", .int file.recordCount),
      ("last_modified", ofOption .int file.lastModified),
      ("deletion_vector_ref", ofOption .text file.vectorReference)]

def ofFileGroup (group : FileGroup) : Value :=
  .record
    [("partition_values", ofPartitionValues group.partitionValues),
      ("files", ofList ofDataFile group.files)]

def ofTable (table : Table) : Value :=
  .record
    [("name", .text table.name), ("table_format", .text table.tableFormat),
      ("base_path", .text table.basePath), ("version", .int table.version),
      ("read_schema", ofOption .record table.readSchema),
      ("partition_fields", ofList .text table.partitionFields),
      ("file_format", .text table.fileFormat.name),
      ("latest_commit_time", .moment table.latestCommitTime)]

def ofSnapshot (snapshot : Snapshot) : Value :=
  .record
    [("table", ofTable snapshot.table),
      ("partitioned_data_files", ofList ofFileGroup snapshot.groups),
      ("source_identifier", .text snapshot.sourceIdentifier)]

/-- (ofEntries entries) is a list of paths with their data files, in order. -/
def ofEntries (entries : List (String × DataFile)) : Value :=
  ofList (fun (path, file) => .list [.text path, ofDataFile file]) entries

def ofFilesDiff (diff : FilesDiff) : Value :=
  .record
    [("added", ofEntries diff.added), ("removed", ofEntries diff.removed),
      ("is_empty", .bool diff.isEmpty)]

def ofAnomaly (anomaly : Anomaly) : Value :=
  .record
    [("version", .int anomaly.version), ("physical_path", .text anomaly.physicalPath),
      ("deletion_vector_ref", ofOption .text anomaly.vectorReference),
      ("error_code", .text anomaly.errorCode)]

def ofTableChange (change : TableChange) : Value :=
  .record
    [("table_as_of_change", ofTable change.table), ("files_diff", ofFilesDiff change.diff),
      ("source_identifier", .text change.sourceIdentifier),
      ("anomalies", ofList ofAnomaly change.anomalies)]

end Value

namespace Schema

def paths (files : List DataFile) : Value :=
  Value.ofList (fun file => .text file.physicalPath) files

/-- (named value more) is a checked value with more about it. -/
def named (value : Value) (more : List (String × Value)) : Value :=
  .record (("value", value) :: more)

/-- Each type of data by name: the check of a value, and what is told of the data. -/
def models : List (String × (Value → Checked Value)) :=
  [("Action", fun v => Value.ofAction <$> asAction v),
    ("DeletionVector", fun v =>
      (fun vector => named (.ofVector vector) [("reference", .text vector.reference)])
        <$> asDeletionVector v),
    ("AddAction", fun v => (fun file => named (.ofAdd file) []) <$> asAdd v),
    ("RemoveAction", fun v => (fun file => named (.ofRemove file) []) <$> asRemove v),
    ("Commit", fun v => (fun commit => named (.ofCommit commit) []) <$> asCommit v),
    ("TableMetadata", fun v => (fun m => named (.ofMetadata m) []) <$> asMetadata v),
    ("DataFile", fun v => (fun file => named (.ofDataFile file) []) <$> asDataFile v),
    ("PartitionFileGroup", fun v => (fun g => named (.ofFileGroup g) []) <$> asFileGroup v),
    ("InternalTable", fun v => (fun table => named (.ofTable table) []) <$> asTable v),
    ("InternalSnapshot", fun v =>
      (fun s => named (.ofSnapshot s) [("data_files", paths s.files)]) <$> asSnapshot v),
    ("FilesDiff", fun v =>
      (fun diff => named (.ofFilesDiff diff)
        [("files_added", paths (diff.added.map (·.2))),
          ("files_removed", paths (diff.removed.map (·.2)))]) <$> asFilesDiff v),
    ("ReconciliationAnomaly", fun v => (fun a => named (.ofAnomaly a) []) <$> asAnomaly v),
    ("TableChange", fun v => (fun c => named (.ofTableChange c) []) <$> asTableChange v),
    ("CommitsBacklog", fun v => (fun b => named (.ofBacklog b) []) <$> asBacklog v),
    ("InstantsForIncrementalSync", fun v => (fun t => named (.lastSync t) []) <$> asLastSync v)]

/-- (describe model value) checks a value against the type of a name. -/
def describe (model : String) (value : Value) : Except Failure Value :=
  match models.lookup model with
  | some check => (check value).toResult
  | none => .error (.missingKey (Text.quoted model))

/-- The names of what data keep about their own kind, with the failure of changing it. -/
def closedNames : List (String × Failure) :=
  [("__class__", .wrongType), ("__dict__", .wrongType), ("__weakref__", .noSuchMember),
    ("__signature__", .noSuchMember), ("__fields_set__", .noSuchMember),
    ("__class_vars__", .noSuchMember), ("__private_attributes__", .noSuchMember)]

/-- (assign model value field) tries to change a field of data that are checked. Fields do not
change. A name that begins with an underscore is none of a field: it can be set, and the data stay
as they are.
-/
def assign (model : String) (value : Value) (field : String) : Except Failure Value := do
  let told ← describe model value
  if field.toList.head? ≠ some '_' then
    .error (.invalid [{ place := [field], kind := .frozenInstance }])
  else
    match closedNames.lookup field with
    | some failure => .error failure
    | none => return (told.field? "value").getD told

end Schema

end DeltaFeed
