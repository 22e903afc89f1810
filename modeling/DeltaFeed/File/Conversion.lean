import DeltaFeed.File.Location
import DeltaFeed.File.Partition
import DeltaFeed.File.Statistics

/-! Data files of log actions. -/

namespace DeltaFeed

/-- (FileFormat.ofProvider provider) is the file format of a provider, in any case. -/
def FileFormat.ofProvider (provider : Option String) : Except Failure FileFormat :=
  match FileFormat.ofName? ((provider.getD "").toLower) with
  | some format => .ok format
  | none =>
    let shown := (provider.map Text.quoted).getD "None"
    .error (.read .unsupportedFormat s!"Unsupported file format provider: {shown}" none)

structure FileContext where
  basePath : String
  fileFormat : FileFormat
  partitionFields : List String
deriving DecidableEq, Repr

def Table.fileContext (table : Table) : FileContext :=
  { basePath := table.basePath
    fileFormat := table.fileFormat
    partitionFields := table.partitionFields }

namespace DataFile

def ofAdd (context : FileContext) (file : AddFile) : DataFile :=
  { physicalPath := Location.full context.basePath file.path
    fileFormat := context.fileFormat
    partitionValues := file.partitionValues.restrict context.partitionFields
    sizeInBytes := file.size
    recordCount := file.recordCount.getD (Statistics.recordCount file.stats 0)
    lastModified := file.modificationTime
    vectorReference := file.deletionVector.map (·.reference) }

/-- (ofRemove context file) is the data file that an action removes; its number of records is not
known.
-/
def ofRemove (context : FileContext) (file : RemoveFile) : DataFile :=
  { physicalPath := Location.full context.basePath file.path
    fileFormat := context.fileFormat
    partitionValues := file.partitionValues.restrict context.partitionFields
    sizeInBytes := file.size.getD 0
    lastModified := file.deletionTimestamp }

/-- (convertAdd context file) is the data file that an action adds; statistics that are needed and
cannot be read are reported.
-/
def convertAdd {σ : Type} (context : FileContext) (file : AddFile) : Op σ DataFile := do
  if file.recordCount.isNone then Statistics.report file.stats
  return ofAdd context file

end DataFile

end DeltaFeed
