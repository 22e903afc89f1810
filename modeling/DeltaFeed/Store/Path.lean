/-! Paths in normal form: without empty parts and parts that stay where they are. A part that goes
up is kept, since where it leads depends on the store.
-/

namespace DeltaFeed.Store

inductive Root where
  | relative
  | absolute
  /-- Two slashes at the beginning, which are not the same as one. -/
  | double
deriving DecidableEq, Repr

def Root.chars : Root → List Char
  | relative => []
  | absolute => ['/']
  | double => ['/', '/']

/-- A path in normal form. -/
structure Path where
  root : Root
  parts : List String
deriving DecidableEq, Repr

namespace Path

/-- (rootOf text) is where the path of a text begins: exactly two slashes are not one, and more
are.
-/
def rootOf (text : List Char) : Root :=
  match (text.takeWhile (· == '/')).length with
  | 0 => .relative
  | 2 => .double
  | _ => .absolute

def ofText (text : String) : Path :=
  let pieces := (text.toList.splitOn '/').filter fun piece => !piece.isEmpty && piece ≠ ['.']
  { root := rootOf text.toList, parts := pieces.map String.ofList }

/-- (path.join tail) goes on from a path, or begins anew if the tail is not relative. -/
def join (path tail : Path) : Path :=
  match tail.root with
  | .relative => { path with parts := path.parts ++ tail.parts }
  | _ => tail

def child (path : Path) (name : String) : Path :=
  path.join (ofText name)

def text (path : Path) : String :=
  let body := (path.parts.map String.toList).intersperse ['/']
  let written := path.root.chars ++ body.flatten
  if written.isEmpty then "." else String.ofList written

def fileScheme : List Char := ['f', 'i', 'l', 'e', ':', '/', '/']

/-- (ofLocation text) is the path that a text or a file URI writes. -/
def ofLocation (text : String) : Path :=
  if fileScheme.isPrefixOf text.toList then
    ofText (String.ofList (text.toList.drop fileScheme.length))
  else ofText text

end Path

/-- (baseName text) is what follows the last slash of a text. -/
def baseName (text : List Char) : List Char :=
  (text.reverse.takeWhile (· ≠ '/')).reverse

end DeltaFeed.Store
