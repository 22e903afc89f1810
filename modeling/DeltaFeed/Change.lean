import DeltaFeed.File.Conversion

/-! What a version changed, from its actions. A delete that masks rows of a file removes the entry
of the file and adds it again with a deletion vector. The set of files stays as it is, so such a
pair counts neither as added nor as removed. A file that is added with a vector and not removed
stays added, and is an anomaly.
-/

namespace DeltaFeed.Change

/-- The files of the actions of a version, by physical path. -/
structure Gathered where
  added : List (String × DataFile) := []
  removed : List (String × DataFile) := []
  /-- The references of the deletion vectors of added files. -/
  vectors : List (String × Option String) := []
deriving DecidableEq, Repr

/-- (gathered.take context action) takes in the file of an action; of several actions of one kind
on one path the last counts.
-/
def Gathered.take (gathered : Gathered) (context : FileContext) (action : Action) : Gathered :=
  match action with
  | .add file =>
    let dataFile := DataFile.ofAdd context file
    { gathered with
      added := put dataFile.physicalPath dataFile gathered.added
      vectors :=
        if file.deletionVector.isSome then
          put dataFile.physicalPath dataFile.vectorReference gathered.vectors
        else gathered.vectors }
  | .remove file =>
    let dataFile := DataFile.ofRemove context file
    { gathered with removed := put dataFile.physicalPath dataFile gathered.removed }

def gather (context : FileContext) (actions : List Action) : Gathered :=
  actions.foldl (fun gathered action => gathered.take context action) {}

namespace Gathered

/-- (gathered.isPaired path) holds if the file at path is added with a vector and also removed. -/
def isPaired (gathered : Gathered) (path : String) : Bool :=
  (keys gathered.vectors).contains path && (keys gathered.removed).contains path

/-- (gathered.unpaired) are the vectors of files that are added and not removed. -/
def unpaired (gathered : Gathered) : List (String × Option String) :=
  gathered.vectors.filter fun entry => !(keys gathered.removed).contains entry.1

/-- (gathered.diff) are the files that are genuinely added and removed. -/
def diff (gathered : Gathered) : FilesDiff :=
  { added := gathered.added.filter fun entry => !gathered.isPaired entry.1
    removed := gathered.removed.filter fun entry => !gathered.isPaired entry.1 }

/-- (gathered.anomalies version) are the vectors without the removal of an earlier entry. -/
def anomalies (gathered : Gathered) (version : Int) : List Anomaly :=
  gathered.unpaired.map fun (path, reference) =>
    { version
      physicalPath := path
      vectorReference := reference
      errorCode := ErrorCode.unpairedVector.id }

end Gathered

def ofActions (version : Int) (table : Table) (actions : List Action) : TableChange :=
  let gathered := gather table.fileContext actions
  { table
    diff := gathered.diff
    sourceIdentifier := Text.decimal version
    anomalies := gathered.anomalies version }

section Reports

variable {σ : Type}

def reportStatistics (actions : List Action) : Op σ Unit :=
  .forEach actions fun action => do
    match action with
    | .add file => if file.recordCount.isNone then Statistics.report file.stats
    | .remove _ => return ()

def reportAnomalies (anomalies : List Anomaly) : Op σ Unit :=
  .forEach anomalies fun anomaly =>
    let (code, path, v) :=
      (anomaly.errorCode, anomaly.physicalPath, Text.decimal anomaly.version)
    .report
      { level := .warning
        channel := .extraction
        message := s!"{code}: No Remove action found for the data file for which "
          ++ s!"deletion vector is added {path} (version={v}). This is unexpected."
        extra := [("version", .int anomaly.version), ("physical_path", .text path)] }

/-- (reconcile version gathered) are the genuine changes and the anomalies among gathered files. -/
def reconcile (version : Int) (gathered : Gathered) : Op σ (FilesDiff × List Anomaly) := do
  reportAnomalies (gathered.anomalies version)
  return (gathered.diff, gathered.anomalies version)

/-- (extract version table actions) is what a version changed, with reports of what is odd. -/
def extract (version : Int) (table : Table) (actions : List Action) : Op σ TableChange := do
  let change := ofActions version table actions
  reportStatistics actions
  reportAnomalies change.anomalies
  if !(change.anomalies.isEmpty && change.diff.isEmpty) then
    let v := Text.decimal version
    let (added, removed) := (change.diff.added.length, change.diff.removed.length)
    let anomalies := change.anomalies.length
    .tell .debug .extraction
      s!"Version {v}: {added} added, {removed} removed, {anomalies} anomalies"
  return change

end Reports

end DeltaFeed.Change
