import DeltaFeed.Schema.Check

/-! Commits of a log, the metadata that they record, and the backlog of commits that a sync has
still to process.
-/

namespace DeltaFeed

structure Commit where
  version : Int
  timestamp : Time.Timestamp
deriving DecidableEq, Repr

structure Metadata where
  tableId : Option String := none
  name : Option String := none
  /-- The schema, as a document. -/
  schemaText : Option String := none
  partitionColumns : List String := []
  formatProvider : String := "parquet"
  configuration : List (String × String) := []
deriving DecidableEq, Repr

def StrictlyIncreasing (versions : List Int) : Prop :=
  versions.Pairwise (· < ·)

instance (versions : List Int) : Decidable (StrictlyIncreasing versions) :=
  inferInstanceAs (Decidable (versions.Pairwise (· < ·)))

namespace Schema

def asCommit (value : Value) : Checked Commit :=
  asModel value fun fields =>
    Commit.mk
      <$> required fields "version" (fun v => (asInt v).ensure (0 ≤ ·) .greaterThanEqual)
      <*> required fields "timestamp" asMoment

def asMetadata (value : Value) : Checked Metadata :=
  asModel value fun fields =>
    Metadata.mk
      <$> optional fields "table_id" none (orNull asText)
      <*> optional fields "name" none (orNull asText)
      <*> optional fields "schema_string" none (orNull asText)
      <*> optional fields "partition_columns" [] (asItems asText)
      <*> optional fields "format_provider" "parquet" asText
      <*> optional fields "configuration" [] (asEntries asText)

def asVersions (value : Value) : Checked (List Int) :=
  (asItems asInt value).ensure (fun versions => decide (StrictlyIncreasing versions)) .valueError

def asBacklog (value : Value) : Checked (List Int) :=
  asModel value fun fields => optional fields "commits_to_process" [] asVersions

def asLastSync (value : Value) : Checked Time.Timestamp :=
  match value with
  | .lastSync t => .good t
  | value => asModel value fun fields => required fields lastSyncName asMoment

end Schema

end DeltaFeed
