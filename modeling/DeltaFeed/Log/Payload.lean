import DeltaFeed.Action
import DeltaFeed.Commit
import DeltaFeed.Text.Part

/-! The lines of a commit file. Each line holds a record with one entry, which says what the line is
about: a file, the table, or the commit itself.
-/

namespace DeltaFeed.Payload

/-- (member value key) is the value of a key of a record, if there is one. -/
def member (value : Value) (key : String) : Except Failure (Option Value) :=
  match value with
  | .record fields => .ok (fields.lookup key)
  | _ => .error .noSuchMember

def isText (s : String) (value : Value) : Bool :=
  match value with
  | .text t => t == s
  | _ => false

/-- (mentions value key) holds if a key is among those of a record, the items of a list, or the
parts of a text.
-/
def mentions (value : Value) (key : String) : Except Failure Bool :=
  match value with
  | .record fields => .ok (keys fields |>.contains key)
  | .list items => .ok (items.any (isText key))
  | .text s => .ok (Text.occursIn key.toList s.toList)
  | _ => .error .wrongType

/-- (entry value key) is the value of a key that a value mentions. -/
def entry (value : Value) (key : String) : Except Failure Value :=
  match value with
  | .record fields =>
    match fields.lookup key with
    | some value => .ok value
    | none => .error (.missingKey (Text.quoted key))
  | _ => .error .wrongType

/-- (orElse value default) is the value, or a default where there is none or it is vacant. -/
def orElse (value : Option Value) (default : Value) : Value :=
  match value with
  | some value => if value.isVacant then default else value
  | none => default

def recordOf (value : Value) : Except Failure (List (String × Value)) :=
  match value with
  | .record fields => .ok fields
  | _ => .error .noSuchMember

def pathOf (fields : List (String × Value)) : Except Failure Value :=
  match fields.lookup "path" with
  | some path => .ok path
  | none => .error (.missingKey (Text.quoted "path"))

def vectorOf (fields : List (String × Value)) : Except Failure (Option DeletionVector) :=
  match fields.lookup "deletionVector" with
  | some value =>
    if value.isVacant then .ok none else some <$> (Schema.asDeletionVector value).toResult
  | none => .ok none

/-- (shared fields path) are the fields that all file actions have in common. -/
def shared (fields : List (String × Value)) (path : Value) : List (String × Value) :=
  [("path", path), ("partition_values", orElse (fields.lookup "partitionValues") (.record [])),
    ("data_change", (fields.lookup "dataChange").getD (.bool true))]

def addOf (value : Value) : Except Failure AddFile := do
  let fields ← recordOf value
  let path ← pathOf fields
  let deletionVector ← vectorOf fields
  let stated := shared fields path
    ++ [("size", orElse (fields.lookup "size") (.int 0)),
      ("modification_time", (fields.lookup "modificationTime").getD .null),
      ("stats", (fields.lookup "stats").getD .null)]
  let file ← (Schema.asAdd (.record stated)).toResult
  return { file with deletionVector }

def removeOf (value : Value) : Except Failure RemoveFile := do
  let fields ← recordOf value
  let path ← pathOf fields
  let deletionVector ← vectorOf fields
  let stated := shared fields path
    ++ [("size", (fields.lookup "size").getD .null),
      ("deletion_timestamp", (fields.lookup "deletionTimestamp").getD .null)]
  let file ← (Schema.asRemove (.record stated)).toResult
  return { file with deletionVector }

def actionOf (line : Value) : Except Failure (Option Action) := do
  if ← mentions line "add" then return some (.add (← addOf (← entry line "add")))
  else if ← mentions line "remove" then
    return some (.remove (← removeOf (← entry line "remove")))
  else return none

def actionsOf : List Value → Except Failure (List Action)
  | [] => .ok []
  | line :: rest => do
    let action ← actionOf line
    return action.toList ++ (← actionsOf rest)

/-- (present value key) is the value of a key of a record, unless it is vacant. -/
def present (value : Value) (key : String) : Except Failure (Option Value) :=
  return (← member value key).filter (!·.isVacant)

def metadataOf (defaultProvider : String) (value : Value) : Except Failure Metadata := do
  let fields ← recordOf value
  let format ← recordOf (orElse (fields.lookup "format") (.record []))
  let provider := (format.lookup "provider").getD (.text defaultProvider)
  (Schema.asMetadata (.record
    [("table_id", (fields.lookup "id").getD .null),
      ("name", (fields.lookup "name").getD .null),
      ("schema_string", (fields.lookup "schemaString").getD .null),
      ("partition_columns", orElse (fields.lookup "partitionColumns") (.list [])),
      ("format_provider", provider),
      ("configuration", orElse (fields.lookup "configuration") (.record []))])).toResult

/-- (statedMillis lines) is the time that the first commit information with a time states. -/
def statedMillis : List Value → Except Failure (Option Int)
  | [] => .ok none
  | line :: rest => do
    match ← present line "commitInfo" with
    | some info =>
      match ← member info "inCommitTimestamp" with
      | some (.int millis) => return some millis
      | _ => statedMillis rest
    | none => statedMillis rest

end DeltaFeed.Payload
