import DeltaFeed.Text.Part
import DeltaFeed.Text.Percent

/-! Where data files are. A log writes the path of a file percent-encoded and relative to the root
of its table, or as an absolute path or URI, which is taken as it is.
-/

namespace DeltaFeed.Location

/-- (isAbsolute path) holds of paths that do not depend on the root of a table. -/
def isAbsolute (path : List Char) : Bool :=
  Text.occursIn [':', '/', '/'] path || ['/'].isPrefixOf path
    || ['f', 'i', 'l', 'e', ':'].isPrefixOf path

/-- (fullChars base path) is the full path of a file that the log of a table at base writes as
path.
-/
def fullChars (base path : List Char) : List Char :=
  if isAbsolute path then path
  else Text.dropTrailing '/' base ++ '/' :: Text.percentDecode path

/-- (full base path) is the full path of a file that the log of a table at base writes as path.
-/
def full (base path : String) : String :=
  String.ofList (fullChars base.toList path.toList)

end DeltaFeed.Location
