import DeltaFeed.Decimal.Shortest
import DeltaFeed.Integer
import DeltaFeed.Text.Uppercase

/-! Settings of the library, which the environment may change. -/

namespace DeltaFeed

structure Settings where
  logLevel : String := "INFO"
  logFormat : String :=
    r"<green>{time:YYYY-MM-DD HH:mm:ss.SSS}</green> | <level>{level: <8}</level> | "
      ++ r"<cyan>{extra[logger_name]}</cyan> - <level>{message}</level>"
  /-- The directory of the log below the root of a table. -/
  logDirectory : String := "_delta_log"
  /-- The number of digits in the name of a commit file. -/
  fileDigits : Int := 20
  /-- The number of commit files that are kept in memory. -/
  cacheSize : Int := 128
  defaultProvider : String := "parquet"
  preponeHours : Decimal.Binary64 := .finite false 0 (-1074)

namespace Settings

def tableFormat : String := "DELTA"

def markerFormat : String := "%Y-%m-%dT%H:%M:%SZ"

def intSetting (env : List (String × String)) (name : String) (default : Int)
    : Except Failure Int :=
  match env.lookup name with
  | some text => Integer.read text.toList
  | none => .ok default

def floatSetting (env : List (String × String)) (name : String) (default : Decimal.Binary64)
    : Except Failure Decimal.Binary64 :=
  match env.lookup name with
  | some text =>
    match Decimal.readFloat text.toList with
    | some x => .ok x
    | none => .error (.badValue (.notFloat text))
  | none => .ok default

def ofEnvironment (env : List (String × String)) : Except Failure Settings := do
  let standard : Settings := {}
  let fileDigits ← intSetting env "DELTA_COMMIT_FILE_DIGITS" standard.fileDigits
  let cacheSize ← intSetting env "DELTA_COMMIT_CACHE_SIZE" standard.cacheSize
  let preponeHours ←
    floatSetting env "CONVERSION_PREPONE_MARKER_HOURS" standard.preponeHours
  return {
    logLevel := Text.uppercase ((env.lookup "LOG_LEVEL").getD standard.logLevel)
    logFormat := (env.lookup "CONVERSION_LOG_FORMAT").getD standard.logFormat
    logDirectory := (env.lookup "DELTA_LOG_DIR_NAME").getD standard.logDirectory
    fileDigits
    cacheSize
    defaultProvider := (env.lookup "DELTA_DEFAULT_FILE_FORMAT").getD standard.defaultProvider
    preponeHours }

end Settings

end DeltaFeed
