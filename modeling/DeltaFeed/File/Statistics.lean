import DeltaFeed.Op
import DeltaFeed.Document.Reader

/-! The statistics that a log keeps for a data file, a record in a document. Only the number of
records is read. Statistics that cannot be read count as empty.
-/

namespace DeltaFeed.Statistics

/-- (unreadable stats) is the text of statistics that are no document. -/
def unreadable (stats : Option String) : Option String :=
  stats.filter fun text => !text.isEmpty && (Document.read text).isNone

def read (stats : Option String) : List (String × Value) :=
  match stats.bind Document.read with
  | some (.record fields) => fields
  | _ => []

/-- (recordCount stats default) is the number of records, or a default value where the statistics
do not tell.
-/
def recordCount (stats : Option String) (default : Int) : Int :=
  match (read stats).lookup "numRecords" with
  | some (.int n) => n
  | _ => default

def shownLength : Nat := 200

def report {σ : Type} (stats : Option String) : Op σ Unit := do
  match unreadable stats with
  | some text =>
    let shown := String.ofList (text.toList.take shownLength)
    .tell .warning .statistics s!"Ignoring unparseable file stats: {shown}"
  | none => return ()

end DeltaFeed.Statistics
