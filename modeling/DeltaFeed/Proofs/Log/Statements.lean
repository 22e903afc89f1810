import DeltaFeed.File.Statistics
import DeltaFeed.Proofs.Log.CommitFiles
import DeltaFeed.Proofs.Log.Recording

/-! Statements about files and tables, with typed arguments, and the lines of a commit file that
are written for them. A line states exactly the action or the metadata that it was written for.
-/

namespace DeltaFeed.Log

-----------------------------------------------------------------------------------------
-- Statements
-----------------------------------------------------------------------------------------

/-- (nullable wrap a) is the value of what may be absent. -/
def nullable {α : Type} (wrap : α → Value) : Option α → Value
  | none => .null
  | some a => wrap a

/-- (partitions values) is the record of some partition values. -/
def partitions (values : PartitionValues) : Value :=
  .record (values.map fun (column, value) => (column, nullable .text value))

def columnsValue (columns : List String) : Value :=
  .list (columns.map .text)

/-- (documentOf value) is the document that holds a value, and empty if there is none. -/
def documentOf (value : Value) : String :=
  (Document.write value).toOption.getD ""

structure VectorStatement where
  pathOrInline : String
  storageType : String
  offset : Option Int
  cardinality : Int

structure AddStatement where
  path : String
  partitionValues : Option PartitionValues
  size : Int
  numRecords : Option Int
  modificationTime : Int
  vector : Option VectorStatement

structure RemoveStatement where
  path : String
  partitionValues : Option PartitionValues
  size : Option Int
  deletionTimestamp : Int
  vector : Option VectorStatement

/-- What is stated of a table with the standard schema. -/
structure MetadataStatement where
  partitionColumns : Option (List String)
  name : Option String
  provider : String
  tableId : String

/-- A statement of a commit. -/
inductive Statement where
  | add (statement : AddStatement)
  | remove (statement : RemoveStatement)
  | metadata (statement : MetadataStatement)

-----------------------------------------------------------------------------------------
-- Lines
-----------------------------------------------------------------------------------------

def VectorStatement.line (statement : VectorStatement) : VectorLine where
  pathOrInline := .text statement.pathOrInline
  storageType := .text statement.storageType
  offset := nullable .int statement.offset
  cardinality := .int statement.cardinality

/-- (vectorValue vector) is the deletion vector of a file in its line, if it has one. -/
def vectorValue (vector : Option VectorStatement) : Value :=
  nullable (·.line.value) vector

def AddStatement.line (statement : AddStatement) : AddLine where
  path := .text statement.path
  partitionValues := nullable partitions statement.partitionValues
  size := .int statement.size
  numRecords := nullable .int statement.numRecords
  modificationTime := .int statement.modificationTime
  vector := vectorValue statement.vector

def RemoveStatement.line (statement : RemoveStatement) : RemoveLine where
  path := .text statement.path
  partitionValues := nullable partitions statement.partitionValues
  size := nullable .int statement.size
  deletionTimestamp := .int statement.deletionTimestamp
  vector := vectorValue statement.vector

def MetadataStatement.line (statement : MetadataStatement) : MetadataLine where
  partitionColumns := nullable columnsValue statement.partitionColumns
  name := nullable .text statement.name
  provider := .text statement.provider
  tableId := .text statement.tableId

def Statement.value : Statement → Except Failure Value
  | add statement => statement.line.value
  | remove statement => .ok statement.line.value
  | metadata statement => statement.line.value

/-- (valuesOf statements) are the lines of some statements, in order. -/
def valuesOf : List Statement → Except Failure (List Value)
  | [] => .ok []
  | statement :: rest => do
    let line ← statement.value
    return line :: (← valuesOf rest)

-----------------------------------------------------------------------------------------
-- Meanings
-----------------------------------------------------------------------------------------

def VectorStatement.vector (statement : VectorStatement) : DeletionVector where
  storageType := statement.storageType
  pathOrInline := statement.pathOrInline
  offset := statement.offset
  sizeInBytes := 36
  cardinality := statement.cardinality

/-- (statsText count) are the statistics that state a number of records. -/
def statsText (count : Int) : String :=
  documentOf (.record [("numRecords", .int count)])

def AddStatement.file (statement : AddStatement) : AddFile where
  path := statement.path
  partitionValues := statement.partitionValues.getD []
  size := statement.size
  modificationTime := some statement.modificationTime
  stats := statement.numRecords.map statsText
  deletionVector := statement.vector.map (·.vector)

def RemoveStatement.file (statement : RemoveStatement) : RemoveFile where
  path := statement.path
  partitionValues := statement.partitionValues.getD []
  size := statement.size
  deletionTimestamp := some statement.deletionTimestamp
  deletionVector := statement.vector.map (·.vector)

def MetadataStatement.recorded (statement : MetadataStatement) : Metadata where
  tableId := some statement.tableId
  name := statement.name
  schemaText := some (documentOf standardSchema)
  partitionColumns := statement.partitionColumns.getD []
  formatProvider := statement.provider

/-- (statement.action?) is the file action that is stated, if it is one. -/
def Statement.action? : Statement → Option Action
  | add statement => some (.add statement.file)
  | remove statement => some (.remove statement.file)
  | metadata _ => none

/-- (statement.recorded?) are the metadata that are recorded, if they are any. -/
def Statement.recorded? : Statement → Option Metadata
  | metadata statement => some statement.recorded
  | _ => none

-----------------------------------------------------------------------------------------
-- Valid arguments
-----------------------------------------------------------------------------------------

/-- (InRange n) holds of the integers that a document can hold. -/
def InRange (n : Int) : Prop :=
  Document.leastInt ≤ n ∧ n ≤ Document.greatestInt

instance (n : Int) : Decidable (InRange n) :=
  inferInstanceAs (Decidable (Document.leastInt ≤ n ∧ n ≤ Document.greatestInt))

/-- The integers of a deletion vector can be written. -/
structure VectorStatement.Valid (statement : VectorStatement) : Prop where
  offset : ∀ n ∈ statement.offset, InRange n
  cardinality : InRange statement.cardinality

/-- The integers of an added file can be written, and no partition column is named twice. -/
structure AddStatement.Valid (statement : AddStatement) : Prop where
  columns : ∀ values ∈ statement.partitionValues, (keys values).Nodup
  size : InRange statement.size
  numRecords : ∀ n ∈ statement.numRecords, InRange n
  modificationTime : InRange statement.modificationTime
  vector : ∀ vector ∈ statement.vector, vector.Valid

/-- The integers of a removed file can be written, and no partition column is named twice. -/
structure RemoveStatement.Valid (statement : RemoveStatement) : Prop where
  columns : ∀ values ∈ statement.partitionValues, (keys values).Nodup
  size : ∀ n ∈ statement.size, InRange n
  deletionTimestamp : InRange statement.deletionTimestamp
  vector : ∀ vector ∈ statement.vector, vector.Valid

/-- (statement.Valid) holds of statements with arguments that can be written. -/
def Statement.Valid : Statement → Prop
  | add statement => statement.Valid
  | remove statement => statement.Valid
  | metadata _ => True

instance (statement : VectorStatement) : Decidable statement.Valid :=
  decidable_of_iff ((∀ n ∈ statement.offset, InRange n) ∧ InRange statement.cardinality)
    ⟨fun ⟨offset, cardinality⟩ => ⟨offset, cardinality⟩,
      fun valid => ⟨valid.offset, valid.cardinality⟩⟩

instance (statement : AddStatement) : Decidable statement.Valid :=
  decidable_of_iff
    ((∀ values ∈ statement.partitionValues, (keys values).Nodup)
      ∧ InRange statement.size
      ∧ (∀ n ∈ statement.numRecords, InRange n)
      ∧ InRange statement.modificationTime
      ∧ ∀ vector ∈ statement.vector, vector.Valid)
    ⟨fun ⟨columns, size, numRecords, modificationTime, vector⟩ =>
        ⟨columns, size, numRecords, modificationTime, vector⟩,
      fun valid =>
        ⟨valid.columns, valid.size, valid.numRecords, valid.modificationTime, valid.vector⟩⟩

instance (statement : RemoveStatement) : Decidable statement.Valid :=
  decidable_of_iff
    ((∀ values ∈ statement.partitionValues, (keys values).Nodup)
      ∧ (∀ n ∈ statement.size, InRange n)
      ∧ InRange statement.deletionTimestamp
      ∧ ∀ vector ∈ statement.vector, vector.Valid)
    ⟨fun ⟨columns, size, deletionTimestamp, vector⟩ => ⟨columns, size, deletionTimestamp, vector⟩,
      fun valid => ⟨valid.columns, valid.size, valid.deletionTimestamp, valid.vector⟩⟩

instance : (statement : Statement) → Decidable statement.Valid
  | .add statement => inferInstanceAs (Decidable statement.Valid)
  | .remove statement => inferInstanceAs (Decidable statement.Valid)
  | .metadata _ => inferInstanceAs (Decidable True)

-----------------------------------------------------------------------------------------
-- Parts of lines
-----------------------------------------------------------------------------------------

open Document (Kept KeptItems KeptField KeptFields keptFields_iff keptItems_iff depth depthOfItems
  depthOfField depthOfFields depthOfItems_le_iff depthOfFields_le_iff)

/-- Partition values can be written if no column is named twice. -/
theorem kept_partitions {values : PartitionValues} (distinct : (keys values).Nodup)
    : Kept (partitions values) := by
  refine ⟨?_, keptFields_iff.mpr fun field member => ?_⟩
  · simpa [keys, Function.comp_def] using distinct
  · obtain ⟨⟨column, value⟩, _, rfl⟩ := List.mem_map.mp member
    cases value <;> exact trivial

theorem kept_getD_partitions {values : Option PartitionValues}
    (distinct : ∀ v ∈ values, (keys v).Nodup)
    : Kept (partitions (values.getD [])) := by
  cases values with
  | none => exact kept_partitions List.nodup_nil
  | some values => exact kept_partitions (distinct values rfl)

/-- Partition values are at most one level deep. -/
theorem depth_partitions (values : PartitionValues)
    : depth (partitions values) ≤ 1 := by
  rw [partitions, depth]
  refine Nat.succ_le_succ (depthOfFields_le_iff.mpr fun field member => ?_)
  obtain ⟨⟨column, value⟩, _, rfl⟩ := List.mem_map.mp member
  cases value <;> exact Nat.le_refl 0

/-- No partition values are written like none. -/
theorem orElse_partitions (values : PartitionValues)
    : Payload.orElse (some (partitions values)) (.record []) = partitions values := by
  cases values <;> rfl

/-- Partition values that are absent are written like none. -/
theorem orElse_nullable_partitions (values : Option PartitionValues)
    : Payload.orElse (some (nullable partitions values)) (.record []) = partitions (values.getD [])
    := by
  cases values with
  | none => rfl
  | some values => exact orElse_partitions values

/-- Partition values are read as those that were written, by induction on the columns. -/
theorem asEntries_partitions (values : PartitionValues)
    : Schema.asEntries (Schema.orNull Schema.asText) (partitions values) = .good values := by
  rw [partitions, Schema.asEntries]
  induction values with
  | nil => rfl
  | cons entry rest ih =>
      obtain ⟨column, value⟩ := entry
      rw [List.map_cons, Schema.asEntries.go, ih]
      cases value <;> rfl

theorem asText_nullable (s : Option String)
    : Schema.orNull Schema.asText (nullable .text s) = .good s := by
  cases s <;> rfl

theorem orElse_int (n : Int)
    : Payload.orElse (some (.int n)) (.int 0) = .int n := by
  rw [Payload.orElse]
  split
  case isTrue zero => rw [beq_iff_eq.mp zero]
  case isFalse => rfl

section Given

variable {fields : List (String × Value)} {key other : String} {value : Value}

/-- A field that is given has its key, and its value is not null. -/
theorem of_mem_given {field : String × Value} (member : field ∈ given key value)
    : field = (key, value) := by
  cases value with
  | null => cases member
  | _ => exact List.mem_singleton.mp member

/-- What holds of the values of a record and of a further value holds once that is given. -/
theorem forall_mem_append_given {p : Value → Prop} (before : ∀ field ∈ fields, p field.2)
    (last : p value)
    : ∀ field ∈ fields ++ given key value, p field.2 := by
  intro field member
  rcases List.mem_append.mp member with member | member
  · exact before field member
  · rw [of_mem_given member]
    exact last

/-- A field that may be given adds at most its key. -/
theorem keys_append_given_sublist {names : List String} (before : (keys fields).Sublist names)
    : (keys (fields ++ given key value)).Sublist (names ++ [key]) := by
  have last : (keys (given key value)).Sublist [key] := by
    cases value with
    | null => exact List.nil_sublist _
    | _ => exact List.Sublist.refl _
  rw [keys, List.map_append]
  exact before.append last

/-- A field that may be given has no other key. -/
theorem lookup_given_other (different : other ≠ key)
    : (given key value).lookup other = none := by
  refine List.lookup_eq_none_iff.mpr fun field member => ?_
  rw [of_mem_given member]
  simpa using different

/-- What may be absent is found under its key exactly if it is there. -/
theorem lookup_given_nullable {α : Type} (key : String) (wrap : α → Value)
    (solid : ∀ a, wrap a ≠ .null) (a : Option α)
    : (given key (nullable wrap a)).lookup key = a.map wrap := by
  cases a with
  | none => rfl
  | some a =>
      have isGiven : given key (wrap a) = [(key, wrap a)] := by
        have := solid a
        cases value : wrap a with
        | null => exact absurd value this
        | _ => rfl
      rw [nullable, isGiven, List.lookup_cons_self, Option.map_some]

end Given

/-- A record of one record with values that can be written is a line. -/
theorem isLine_of_fields {fields : List (String × Value)} (key : String)
    (distinct : (keys fields).Nodup) (kept : ∀ field ∈ fields, Kept field.2)
    (shallow : ∀ field ∈ fields, depth field.2 ≤ 2)
    : IsLine (.record [(key, .record fields)]) where
  isRecord := ⟨_, rfl⟩
  kept := ⟨by simp, ⟨distinct, keptFields_iff.mpr kept⟩, trivial⟩
  shallow := by
    have inner : depthOfFields fields ≤ 2 := depthOfFields_le_iff.mpr shallow
    have outer : depth (.record [(key, .record fields)]) = max (depthOfFields fields + 1) 0 + 1 :=
      rfl
    rw [outer, Document.maxWrittenDepth]
    omega

-----------------------------------------------------------------------------------------
-- Deletion vectors
-----------------------------------------------------------------------------------------

theorem kept_nullable_int {n : Option Int} (range : ∀ k ∈ n, InRange k)
    : Kept (nullable .int n) := by
  cases n with
  | none => trivial
  | some k => exact range k rfl

theorem depth_nullable_int (n : Option Int)
    : depth (nullable .int n) = 0 := by
  cases n <;> rfl

namespace VectorStatement

variable {statement : VectorStatement}

/-- The line of a valid deletion vector can be written. -/
theorem kept_value (valid : statement.Valid)
    : Kept statement.line.value := by
  have distinct : (["storageType", "pathOrInlineDv", "sizeInBytes", "cardinality"]
      ++ ["offset"]).Nodup := by decide
  have size : InRange 36 := by decide
  refine ⟨distinct.sublist (keys_append_given_sublist (List.Sublist.refl _)), ?_⟩
  refine keptFields_iff.mpr (forall_mem_append_given ?_ (kept_nullable_int valid.offset))
  simpa [line, Kept] using ⟨size, valid.cardinality⟩

theorem depth_value (statement : VectorStatement)
    : depth statement.line.value ≤ 1 := by
  refine Nat.succ_le_succ (depthOfFields_le_iff.mpr ?_)
  refine forall_mem_append_given (p := (depth · ≤ 0)) ?_ ?_
  · simp [line, depth]
  · exact Nat.le_of_eq (depth_nullable_int _)

/-- The line of a deletion vector is read as that vector. -/
theorem asDeletionVector_value (statement : VectorStatement)
    : Schema.asDeletionVector statement.line.value = .good statement.vector := by
  obtain ⟨path, storageType, offset, cardinality⟩ := statement
  cases offset <;> rfl

end VectorStatement

theorem kept_vectorValue {vector : Option VectorStatement} (valid : ∀ v ∈ vector, v.Valid)
    : Kept (vectorValue vector) := by
  cases vector with
  | none => trivial
  | some statement => exact statement.kept_value (valid statement rfl)

theorem depth_vectorValue (vector : Option VectorStatement)
    : depth (vectorValue vector) ≤ 1 := by
  cases vector with
  | none => exact Nat.zero_le 1
  | some statement => exact statement.depth_value

/-- The deletion vector of a line is read as it was stated. -/
theorem vectorOf_of_lookup {fields : List (String × Value)} {vector : Option VectorStatement}
    (found : fields.lookup "deletionVector" = vector.map (·.line.value))
    : Payload.vectorOf fields = .ok (vector.map (·.vector)) := by
  rw [Payload.vectorOf, found]
  cases vector with
  | none => rfl
  | some statement =>
      have solid : statement.line.value.isVacant = false := rfl
      simp only [Option.map_some, solid, Bool.false_eq_true, if_false,
        statement.asDeletionVector_value]
      rfl

-----------------------------------------------------------------------------------------
-- Added files
-----------------------------------------------------------------------------------------

namespace AddStatement

variable {statement : AddStatement}

def fields (statement : AddStatement) : List (String × Value) :=
  [("path", .text statement.path),
    ("partitionValues", partitions (statement.partitionValues.getD [])),
    ("size", .int statement.size), ("modificationTime", .int statement.modificationTime),
    ("dataChange", .bool true)]
  ++ given "stats" (nullable (fun count => .text (statsText count)) statement.numRecords)
  ++ given "deletionVector" (vectorValue statement.vector)

/-- Statistics that state a number of records are written, and read as they were stated. -/
theorem write_stats {count : Int} (range : InRange count)
    : Document.write (.record [("numRecords", .int count)]) = .ok (statsText count)
      ∧ Document.read (statsText count) = some (.record [("numRecords", .int count)]) := by
  have kept : Kept (.record [("numRecords", .int count)]) :=
    ⟨by simp, keptFields_iff.mpr (by simpa [Kept, InRange] using range)⟩
  obtain ⟨text, written, read, _⟩ := Document.exists_write kept (show 1 ≤ 254 by decide)
  have same : statsText count = text := by
    rw [statsText, documentOf, written]
    rfl
  rw [same]
  exact ⟨written, read⟩

/-- The line of a valid statement about an added file can be made: only its statistics have to be
written for it.
-/
theorem value_eq (valid : statement.Valid)
    : statement.line.value = .ok (.record [("add", .record statement.fields)]) := by
  rw [AddLine.value]
  simp only [line, orElse_nullable_partitions]
  cases numRecords : statement.numRecords with
  | none =>
    simp only [fields, numRecords]
    rfl
  | some count =>
      have written := (write_stats (valid.numRecords count numRecords)).1
      simp only [nullable, written, fields, numRecords]
      rfl

/-- The line of an added file can be written, since its fields can, and none is deep. -/
theorem isLine (valid : statement.Valid)
    : IsLine (.record [("add", .record statement.fields)]) := by
  have distinct : (["path", "partitionValues", "size", "modificationTime", "dataChange"]
      ++ ["stats"] ++ ["deletionVector"]).Nodup := by decide
  have keptPartitions := kept_getD_partitions valid.columns
  refine isLine_of_fields "add" (distinct.sublist (keys_append_given_sublist
    (keys_append_given_sublist (List.Sublist.refl _)))) ?_ ?_
  · refine forall_mem_append_given (forall_mem_append_given ?_ ?_) (kept_vectorValue valid.vector)
    · simpa [Kept] using ⟨keptPartitions, valid.size, valid.modificationTime⟩
    · cases statement.numRecords <;> trivial
  · have shallow := depth_partitions (statement.partitionValues.getD [])
    have shallowVector := depth_vectorValue statement.vector
    refine forall_mem_append_given (p := (depth · ≤ 2))
      (forall_mem_append_given (p := (depth · ≤ 2)) ?_ ?_) (by omega)
    · simpa [depth] using Nat.le_succ_of_le shallow
    · cases statement.numRecords <;> exact Nat.zero_le 2

/-- The statistics of the line are there exactly if a number of records is stated. -/
theorem lookup_stats (statement : AddStatement)
    : statement.fields.lookup "stats"
      = statement.numRecords.map fun count => .text (statsText count) := by
  have stats := lookup_given_nullable "stats" (fun count => .text (statsText count)) nofun
    statement.numRecords
  have noVector : (given "deletionVector" (vectorValue statement.vector)).lookup "stats" = none :=
    lookup_given_other (by decide)
  rw [fields, List.lookup_append, List.lookup_append, stats, noVector, Option.or_none]
  rfl

theorem lookup_deletionVector (statement : AddStatement)
    : statement.fields.lookup "deletionVector" = statement.vector.map (·.line.value) := by
  have vector := lookup_given_nullable "deletionVector" (fun v => v.line.value) nofun
    statement.vector
  have noStats : (given "stats" (nullable (fun count => .text (statsText count))
      statement.numRecords)).lookup "deletionVector" = none :=
    lookup_given_other (by decide)
  rw [fields, List.lookup_append, List.lookup_append, noStats, vectorValue, vector]
  rfl

/-- The line of an added file is read as that file. -/
theorem addOf_fields (statement : AddStatement)
    : Payload.addOf (.record statement.fields) = .ok statement.file := by
  have path : statement.fields.lookup "path" = some (.text statement.path) := rfl
  have values : statement.fields.lookup "partitionValues"
      = some (partitions (statement.partitionValues.getD [])) := rfl
  have size : statement.fields.lookup "size" = some (.int statement.size) := rfl
  have time : statement.fields.lookup "modificationTime"
      = some (.int statement.modificationTime) := rfl
  have change : statement.fields.lookup "dataChange" = some (.bool true) := rfl
  have stats := statement.lookup_stats
  have vector := vectorOf_of_lookup statement.lookup_deletionVector
  have checked
      : Schema.asAdd (.record
          [("path", .text statement.path),
            ("partition_values", partitions (statement.partitionValues.getD [])),
            ("data_change", .bool true), ("size", .int statement.size),
            ("modification_time", .int statement.modificationTime),
            ("stats", (statement.numRecords.map fun count => .text (statsText count)).getD .null)])
        = .good { statement.file with deletionVector := none } := by
    have entries := asEntries_partitions (statement.partitionValues.getD [])
    cases numRecords : statement.numRecords <;>
      simp [Schema.asAdd, Schema.asModel, Schema.optional, Schema.required, Schema.asText,
        Schema.asInt, Schema.asBool, Schema.orNull, Checked.within, List.lookup_cons, entries, file,
        numRecords]
  simp only [Payload.addOf, Payload.recordOf, Payload.pathOf, Payload.shared, path, values, size,
    time, change, stats, vector, orElse_partitions, orElse_int, bind, Except.bind,
    Option.getD_some, List.cons_append, List.nil_append, checked]
  rfl

/-- The statistics of the file tell the number of records that was stated, and zero if none was. -/
theorem recordCount_file (valid : statement.Valid)
    : Statistics.recordCount statement.file.stats 0 = statement.numRecords.getD 0 := by
  cases numRecords : statement.numRecords with
  | none =>
      have noStats : statement.file.stats = none := by rw [file, numRecords, Option.map_none]
      rw [noStats]
      rfl
  | some count =>
      have stats : statement.file.stats = some (statsText count) := by
        rw [file, numRecords, Option.map_some]
      have read := (write_stats (valid.numRecords count numRecords)).2
      have found : Statistics.read (some (statsText count)) = [("numRecords", .int count)] := by
        rw [Statistics.read, Option.bind_some, read]
      rw [stats, Statistics.recordCount, found]
      rfl

end AddStatement

-----------------------------------------------------------------------------------------
-- Removed files
-----------------------------------------------------------------------------------------

namespace RemoveStatement

variable {statement : RemoveStatement}

def fields (statement : RemoveStatement) : List (String × Value) :=
  [("path", .text statement.path),
    ("partitionValues", partitions (statement.partitionValues.getD [])),
    ("deletionTimestamp", .int statement.deletionTimestamp), ("dataChange", .bool true)]
  ++ given "size" (nullable .int statement.size)
  ++ given "deletionVector" (vectorValue statement.vector)

/-- The line of a removed file needs nothing to be written before. -/
theorem value_eq (statement : RemoveStatement)
    : statement.line.value = .record [("remove", .record statement.fields)] := by
  rw [RemoveLine.value]
  simp only [line, orElse_nullable_partitions]
  rfl

/-- The line of a removed file can be written, like that of an added one. -/
theorem isLine (valid : statement.Valid)
    : IsLine (.record [("remove", .record statement.fields)]) := by
  have distinct : (["path", "partitionValues", "deletionTimestamp", "dataChange"]
      ++ ["size"] ++ ["deletionVector"]).Nodup := by decide
  have keptPartitions := kept_getD_partitions valid.columns
  refine isLine_of_fields "remove" (distinct.sublist (keys_append_given_sublist
    (keys_append_given_sublist (List.Sublist.refl _)))) ?_ ?_
  · refine forall_mem_append_given (forall_mem_append_given ?_ (kept_nullable_int valid.size))
      (kept_vectorValue valid.vector)
    simpa [Kept] using ⟨keptPartitions, valid.deletionTimestamp⟩
  · have shallow := depth_partitions (statement.partitionValues.getD [])
    have shallowSize := depth_nullable_int statement.size
    have shallowVector := depth_vectorValue statement.vector
    refine forall_mem_append_given (p := (depth · ≤ 2))
      (forall_mem_append_given (p := (depth · ≤ 2)) ?_ (by omega)) (by omega)
    simpa [depth] using Nat.le_succ_of_le shallow

theorem lookup_size (statement : RemoveStatement)
    : statement.fields.lookup "size" = statement.size.map .int := by
  have size := lookup_given_nullable "size" .int nofun statement.size
  have noVector : (given "deletionVector" (vectorValue statement.vector)).lookup "size" = none :=
    lookup_given_other (by decide)
  rw [fields, List.lookup_append, List.lookup_append, size, noVector, Option.or_none]
  rfl

theorem lookup_deletionVector (statement : RemoveStatement)
    : statement.fields.lookup "deletionVector" = statement.vector.map (·.line.value) := by
  have vector := lookup_given_nullable "deletionVector" (fun v => v.line.value) nofun
    statement.vector
  have noSize : (given "size" (nullable .int statement.size)).lookup "deletionVector" = none :=
    lookup_given_other (by decide)
  rw [fields, List.lookup_append, List.lookup_append, noSize, vectorValue, vector]
  rfl

/-- The line of a removed file is read as that file. -/
theorem removeOf_fields (statement : RemoveStatement)
    : Payload.removeOf (.record statement.fields) = .ok statement.file := by
  have path : statement.fields.lookup "path" = some (.text statement.path) := rfl
  have values : statement.fields.lookup "partitionValues"
      = some (partitions (statement.partitionValues.getD [])) := rfl
  have time : statement.fields.lookup "deletionTimestamp"
      = some (.int statement.deletionTimestamp) := rfl
  have change : statement.fields.lookup "dataChange" = some (.bool true) := rfl
  have size := statement.lookup_size
  have vector := vectorOf_of_lookup statement.lookup_deletionVector
  have checked
      : Schema.asRemove (.record
          [("path", .text statement.path),
            ("partition_values", partitions (statement.partitionValues.getD [])),
            ("data_change", .bool true), ("size", (statement.size.map Value.int).getD .null),
            ("deletion_timestamp", .int statement.deletionTimestamp)])
        = .good { statement.file with deletionVector := none } := by
    have entries := asEntries_partitions (statement.partitionValues.getD [])
    cases stated : statement.size <;>
      simp [Schema.asRemove, Schema.asModel, Schema.optional, Schema.required, Schema.asText,
        Schema.asInt, Schema.asBool, Schema.orNull, Checked.within, List.lookup_cons, entries, file,
        stated]
  simp only [Payload.removeOf, Payload.recordOf, Payload.pathOf, Payload.shared, path, values, size,
    time, change, vector, orElse_partitions, bind, Except.bind, Option.getD_some, List.cons_append,
    List.nil_append, checked]
  rfl

end RemoveStatement

-----------------------------------------------------------------------------------------
-- Metadata
-----------------------------------------------------------------------------------------

/-- The names of columns are read as those that were written, by induction on the columns. -/
theorem asItems_columnsValue (columns : List String)
    : Schema.asItems Schema.asText (columnsValue columns) = .good columns := by
  have go (index : Nat)
      : Schema.asItems.go Schema.asText index (columns.map .text) = .good columns := by
    induction columns generalizing index with
    | nil => rfl
    | cons column rest ih =>
        rw [List.map_cons, Schema.asItems.go, ih]
        rfl
  exact go 0

/-- The standard schema can be written, as it is not deep and names no field twice. -/
theorem write_standardSchema
    : Document.write standardSchema = .ok (documentOf standardSchema) := by
  have kept : Kept standardSchema := by
    simp [standardSchema, standardSchema.column, Kept, KeptItems, KeptField, KeptFields]
  have shallow : depth standardSchema ≤ Document.maxWrittenDepth := by decide
  obtain ⟨text, written, _⟩ := Document.exists_write kept shallow
  rw [documentOf, written]
  rfl

namespace MetadataStatement

variable {statement : MetadataStatement}

def fields (statement : MetadataStatement) : List (String × Value) :=
  [("id", .text statement.tableId), ("name", nullable .text statement.name),
    ("format", .record [("provider", .text statement.provider), ("options", .record [])]),
    ("schemaString", .text (documentOf standardSchema)),
    ("partitionColumns", columnsValue (statement.partitionColumns.getD [])),
    ("configuration", .record [])]

/-- The line of a table can be made, since the standard schema can be written. -/
theorem value_eq (statement : MetadataStatement)
    : statement.line.value = .ok (.record [("metaData", .record statement.fields)]) := by
  have schema : Payload.orElse (some .null) standardSchema = standardSchema := rfl
  have columns : Payload.orElse (some statement.line.partitionColumns) (.list [])
      = columnsValue (statement.partitionColumns.getD []) := by
    rw [line]
    cases statement.partitionColumns with
    | none => rfl
    | some columns => cases columns <;> rfl
  rw [MetadataLine.value, columns]
  simp only [line, schema, write_standardSchema]
  rfl

/-- The line of a table can be written. -/
theorem isLine (statement : MetadataStatement)
    : IsLine (.record [("metaData", .record statement.fields)]) := by
  have keptColumns : Kept (columnsValue (statement.partitionColumns.getD [])) := by
    refine keptItems_iff.mpr fun item member => ?_
    obtain ⟨column, _, rfl⟩ := List.mem_map.mp member
    trivial
  have keptName : Kept (nullable .text statement.name) := by
    cases statement.name <;> trivial
  refine isLine_of_fields "metaData" (by decide : ["id", "name", "format", "schemaString",
    "partitionColumns", "configuration"].Nodup) ?_ ?_
  · simp [fields, Kept, KeptFields, KeptField, keptColumns, keptName]
  · have shallowName : depth (nullable .text statement.name) = 0 := by
      cases statement.name <;> rfl
    have shallowColumns : depth (columnsValue (statement.partitionColumns.getD [])) ≤ 1 := by
      refine depthOfItems_le_iff.mpr fun item member => ?_
      obtain ⟨column, _, rfl⟩ := List.mem_map.mp member
      exact Nat.le_refl 1
    simp [fields, depth, depthOfFields, depthOfField, shallowName]
    omega

/-- The line of a table is read as the metadata that were stated. -/
theorem metadataOf_fields (statement : MetadataStatement) (provider : String)
    : Payload.metadataOf provider (.record statement.fields) = .ok statement.recorded := by
  have columns : Payload.orElse (some (columnsValue (statement.partitionColumns.getD [])))
      (.list []) = columnsValue (statement.partitionColumns.getD []) := by
    cases statement.partitionColumns.getD [] <;> rfl
  have checked
      : Schema.asMetadata (.record
          [("table_id", .text statement.tableId), ("name", nullable .text statement.name),
            ("schema_string", .text (documentOf standardSchema)),
            ("partition_columns", columnsValue (statement.partitionColumns.getD [])),
            ("format_provider", .text statement.provider), ("configuration", .record [])])
        = .good statement.recorded := by
    have columns := asItems_columnsValue (statement.partitionColumns.getD [])
    have name := asText_nullable statement.name
    have noConfiguration : Schema.asEntries Schema.asText (.record []) = .good [] := rfl
    have text (s : String) : Schema.asText (.text s) = .good s := rfl
    have some (s : String) : Schema.orNull Schema.asText (.text s) = .good (some s) := rfl
    simp [Schema.asMetadata, Schema.asModel, Schema.optional, List.lookup_cons, columns, name,
      noConfiguration, text, some, Checked.within, recorded]
  have format : Payload.orElse (statement.fields.lookup "format") (.record [])
      = .record [("provider", .text statement.provider), ("options", .record [])] := rfl
  have found : statement.fields.lookup "partitionColumns"
      = some (columnsValue (statement.partitionColumns.getD [])) := rfl
  simp only [Payload.metadataOf, Payload.recordOf, format, bind, Except.bind, found, columns]
  exact congrArg Checked.toResult checked

end MetadataStatement

-----------------------------------------------------------------------------------------
-- Statements and their lines
-----------------------------------------------------------------------------------------

/-- (Tells provider statement line) holds of a line that can be written, and that is read as the
action or the metadata of a statement and as nothing else.
-/
structure Tells (provider : String) (statement : Statement) (line : Value) : Prop where
  isLine : IsLine line
  action : Payload.actionOf line = .ok statement.action?
  sound : SoundLine provider line
  untimed : statedTime? line = none
  metadata : recordedMetadata? provider line = statement.recorded?

/-- A line about a file says what is read of the file. -/
theorem tells_of_action {provider key : String} {value : Value} {statement : Statement}
    (isLine : IsLine (.record [(key, value)])) (notInfo : "commitInfo" ≠ key)
    (notMetadata : "metaData" ≠ key)
    (action : Payload.actionOf (.record [(key, value)]) = .ok statement.action?)
    (noMetadata : statement.recorded? = none)
    : Tells provider statement (.record [(key, value)]) := by
  have noField {other : String} (different : other ≠ key)
      : (Value.record [(key, value)]).field? other = none := by
    simp [Value.field?, List.lookup_cons, beq_eq_false_iff_ne.mpr different]
  refine ⟨isLine, action, ⟨⟨_, rfl⟩, ?_, ?_⟩, ?_, ?_⟩
  · intro info found
    rw [noField notInfo] at found
    cases found
  · intro metadata found
    rw [noField notMetadata] at found
    cases found
  · rw [statedTime?, noField notInfo]
    rfl
  · rw [recordedMetadata?, noField notMetadata, noMetadata]
    rfl

/-- A valid statement has a line that says it. -/
theorem Statement.exists_tells {statement : Statement} (valid : statement.Valid) (provider : String)
    : ∃ line, statement.value = .ok line ∧ Tells provider statement line := by
  cases statement with
  | add statement =>
      have action : Payload.actionOf (.record [("add", .record statement.fields)])
          = .ok (some (.add statement.file)) := by
        have read := statement.addOf_fields
        show (do return some (Action.add (← Payload.addOf (.record statement.fields)))) = _
        rw [read]
        rfl
      exact ⟨_, statement.value_eq valid,
        tells_of_action (statement.isLine valid) (by decide) (by decide) action rfl⟩
  | remove statement =>
      have action : Payload.actionOf (.record [("remove", .record statement.fields)])
          = .ok (some (.remove statement.file)) := by
        have read := statement.removeOf_fields
        show (do return some (Action.remove (← Payload.removeOf (.record statement.fields)))) = _
        rw [read]
        rfl
      exact ⟨_, congrArg _ statement.value_eq,
        tells_of_action (statement.isLine valid) (by decide) (by decide) action rfl⟩
  | metadata statement =>
      have read := statement.metadataOf_fields provider
      refine ⟨_, statement.value_eq, statement.isLine, rfl, ⟨⟨_, rfl⟩, nofun, ?_⟩, rfl, ?_⟩
      · rintro value ⟨⟩
        exact .inr ⟨_, read⟩
      · show (Payload.metadataOf provider (.record statement.fields)).toOption = _
        rw [read]
        rfl

/-- Valid statements have lines that say them, one for each. -/
theorem exists_valuesOf {statements : List Statement} (valid : ∀ s ∈ statements, s.Valid)
    (provider : String)
    : ∃ lines,
        valuesOf statements = .ok lines ∧ List.Forall₂ (Tells provider) statements lines := by
  induction statements with
  | nil => exact ⟨[], rfl, .nil⟩
  | cons statement rest ih =>
      obtain ⟨line, value, tells⟩ :=
        Statement.exists_tells (valid statement List.mem_cons_self) provider
      obtain ⟨lines, values, tellRest⟩ := ih fun s member =>
        valid s (List.mem_cons_of_mem statement member)
      refine ⟨line :: lines, ?_, .cons tells tellRest⟩
      rw [valuesOf, value, values]
      rfl

section Lines

variable {provider : String} {statements : List Statement} {lines : List Value}

/-- The lines of some statements are read as their actions, in order. -/
theorem actionsOf_of_tells (told : List.Forall₂ (Tells provider) statements lines)
    : Payload.actionsOf lines = .ok (statements.filterMap Statement.action?) := by
  induction told with
  | nil => rfl
  | @cons statement line statements lines first _ ih =>
      rw [Payload.actionsOf, first.action, ih, List.filterMap_cons]
      cases statement.action? <;> rfl

/-- The lines of some statements record their metadata, in order. -/
theorem recorded_of_tells (told : List.Forall₂ (Tells provider) statements lines)
    : lines.filterMap (recordedMetadata? provider) = statements.filterMap Statement.recorded? := by
  induction told with
  | nil => rfl
  | cons first _ ih => rw [List.filterMap_cons, List.filterMap_cons, first.metadata, ih]

/-- What holds of each line that says a statement holds of all of them. -/
theorem forall_mem_of_tells {p : Value → Prop}
    (told : List.Forall₂ (Tells provider) statements lines)
    (each : ∀ {statement line}, Tells provider statement line → p line)
    : ∀ line ∈ lines, p line := by
  induction told with
  | nil => simp
  | cons first _ ih => exact List.forall_mem_cons.mpr ⟨each first, ih⟩

end Lines

end DeltaFeed.Log
