import DeltaFeed.Log.Reader

/-! The state of a table as of a version: its definition and its data files. Nothing is kept between
calls.
-/

namespace DeltaFeed.Feed

open Log (Reader Lister)

/-- What a table is called and where it is. -/
structure Identity where
  basePath : String
  /-- The name that is reported in place of the one in the log. -/
  tableName : Option String := none
deriving DecidableEq, Repr

def nonEmpty (text : Option String) : Option String :=
  text.filter (!·.isEmpty)

/-- (identity.name metadata) is the name of a table: the given one, or else the one in the log, or
else the last part of its base path.
-/
def Identity.name (identity : Identity) (metadata : Metadata) : String :=
  let base := Text.dropTrailing '/' identity.basePath.toList
  (nonEmpty identity.tableName <|> nonEmpty metadata.name).getD
    (String.ofList (Store.baseName base))

def schemaOf (version : Int) (metadata : Metadata) : Except Failure (Option Value) :=
  match nonEmpty metadata.schemaText with
  | none => .ok none
  | some text =>
    match Document.read text with
    | some schema => .ok (some schema)
    | none =>
      let cause := Failure.malformedDocument
      let shown := cause.text
      .error (.readFrom cause .logRead s!"Invalid schemaString in table metadata: {shown}"
        (some version))

/-- (tableOf identity version metadata commit) is the definition of a table as of a version. -/
def tableOf (identity : Identity) (version : Int) (metadata : Metadata) (commit : Commit)
    : Except Failure Table := do
  let schema ← schemaOf version metadata
  let fileFormat ← FileFormat.ofProvider (some metadata.formatProvider)
  let checked := (Schema.orNull Schema.asFields (schema.getD .null)).within "read_schema"
  let readSchema ← checked.toResult
  return {
    name := identity.name metadata
    basePath := identity.basePath
    version
    readSchema
    partitionFields := metadata.partitionColumns
    fileFormat
    latestCommitTime := commit.timestamp }

variable {ρ : Type}

/-- (projectTable reader identity version) is the definition of a table as of a version. -/
def projectTable (reader : Reader ρ) (identity : Identity) (version : Int) : Op ρ Table := do
  let metadata ← reader.metadataAt version
  let commit ← reader.commitAt version
  .ofResult (tableOf identity version metadata commit)

/-- (listFiles lister version table) are the data files of a table, in groups. Whatever goes wrong
with the listing is a failed iteration.
-/
def listFiles (lister : Lister ρ) (version : Int) (table : Table) : Op ρ (List FileGroup) := do
  match ← .attempt (lister version table) with
  | .error cause =>
    let shown := cause.text
    let detail := s!"Failed to iterate through Delta data files: {shown}"
    .tell .error .projection detail
    .fail (.readFrom cause .fileIteration detail (some version))
  | .ok files =>
    let (count, v) := (files.length, Text.decimal version)
    .tell .debug .projection s!"Listed {count} data files at version {v}"
    return FileGroup.ofFiles files

/-- (projectSnapshot reader lister identity version sourceIdentifier) is a table with its data files
as of a version.
-/
def projectSnapshot (reader : Reader ρ) (lister : Lister ρ) (identity : Identity) (version : Int)
    (sourceIdentifier : Option String) : Op ρ Snapshot := do
  let table ← projectTable reader identity version
  let groups ← listFiles lister version table
  let sourceIdentifier := (nonEmpty sourceIdentifier).getD (Text.decimal version)
  return { table, groups, sourceIdentifier }

end DeltaFeed.Feed
