import DeltaFeed.Op
import DeltaFeed.Store.Path

/-! A store of files: a tree of directories below one working directory. An entry may dangle: it is
listed, but there is nothing that it leads to. What an operation made before it failed stays made.
-/

namespace DeltaFeed.Store

inductive Node where
  /-- A file with its time of modification, in nanoseconds since the beginning of 1970. -/
  | file (content : ByteArray) (modified : Int)
  | directory (entries : List (String × Node))
  | dangling

/-- Where an entry is: the names on the way from the working directory to it. -/
abbrev Location := List String

namespace Node

def entries : Node → List (String × Node)
  | directory entries => entries
  | _ => []

/-- (at? location node) is the entry at a location below another one. -/
def at? : Location → Node → Option Node
  | [], node => some node
  | name :: rest, node => (node.entries.lookup name).bind (at? rest)

/-- (set location node new) puts an entry at a location below a directory. -/
def set : Location → Node → Node → Node
  | [], _, new => new
  | name :: rest, node, new =>
    let below := (node.entries.lookup name).getD (directory [])
    directory (put name (set rest below new) node.entries)

/-- (erase location node) removes the entry at a location below a directory. -/
def erase : Location → Node → Node
  | [], _ => directory []
  | [name], node => directory (without name node.entries)
  | name :: rest, node =>
    let below := (node.entries.lookup name).getD (directory [])
    directory (put name (erase rest below) node.entries)

end Node

structure Tree where
  root : Node := .directory []

def maxNameBytes : Nat := 255

def maxPathBytes : Nat := 4095

/-- The greatest number of directories that are made at once. -/
def maxMade : Nat := 985

/-- (path.isTooLong) holds of the paths that no store takes. -/
def Path.isTooLong (path : Path) : Bool :=
  maxPathBytes < path.text.utf8ByteSize

def hasNull (text : String) : Bool :=
  text.toList.contains '\x00'

namespace Tree

def node? (tree : Tree) (location : Location) : Option Node :=
  tree.root.at? location

/-- (tree.walk here parts) is the location to which the parts of a path lead from a directory. All
but the last part have to be there, and a part that goes up leaves the directory it is in.
-/
def walk (tree : Tree) (here : Location) : List String → Except StorageFault Location
  | [] => .ok here
  | ".." :: rest => if here.isEmpty then .error .notFound else tree.walk here.dropLast rest
  | part :: rest =>
    if hasNull part then .error .notFound
    else if maxNameBytes < part.utf8ByteSize then .error .other
    else
      let next := here ++ [part]
      match tree.node? next, rest with
      | _, [] => .ok next
      | some (.directory _), rest => tree.walk next rest
      | some (.file _ _), _ => .error .notDirectory
      | _, _ => .error .notFound

/-- (tree.locate path) is the location of a path. Only what is below the working directory can be
reached.
-/
def locate (tree : Tree) (path : Path) : Except StorageFault Location :=
  if path.isTooLong then .error .other
  else
    match path.root with
    | .relative => tree.walk [] path.parts
    | _ => .error .notFound

def find (tree : Tree) (path : Path) : Except StorageFault Node := do
  match tree.node? (← tree.locate path) with
  | some .dangling => .error .notFound
  | some node => .ok node
  | none => .error .notFound

def names (tree : Tree) (path : Path) : List String :=
  match tree.find path with
  | .ok node => keys node.entries
  | .error _ => []

def read (tree : Tree) (path : Path) : Except StorageFault ByteArray := do
  match ← tree.find path with
  | .file content _ => .ok content
  | .directory _ => .error .isDirectory
  | .dangling => .error .notFound

def modified (tree : Tree) (path : Path) : Except StorageFault Int := do
  match ← tree.find path with
  | .file _ modified => .ok modified
  | _ => .ok 0

variable {α : Type}

def fail (fault : StorageFault) : Op Tree α :=
  .fail (.storage fault)

/-- (located path) is the location of a path whose entry is to be changed. A null character is
refused before the store is asked.
-/
def located (path : Path) : Op Tree Location := do
  if hasNull path.text then .fail (.badValue .nullInPath)
  match (← .current).locate path with
  | .ok location => return location
  | .error fault => fail fault

def set (location : Location) (node : Node) : Op Tree Unit :=
  .change fun tree => { root := tree.root.set location node }

/-- (makeAll made here parts) makes the directories on the way from a directory, as far as they are
not there, where made tells whether some were made before. A file in the way is found when the
path is looked up, or else when its place is to be taken.
-/
def makeAll (made : Bool) (here : Location) : List String → Op Tree Unit
  | [] => return ()
  | ".." :: rest => if here.isEmpty then fail .notFound else makeAll made here.dropLast rest
  | part :: rest => do
    if maxNameBytes < part.utf8ByteSize then fail .other
    let next := here ++ [part]
    match (← .current).node? next with
    | some (.directory _) => makeAll made next rest
    | none =>
      set next (.directory [])
      makeAll true next rest
    | some (.file _ _) => fail (if made || rest.isEmpty then .occupied else .notDirectory)
    | some .dangling => fail .occupied

/-- (tree.missing here parts) is the number of parts of a path from the first one on that leads
nowhere.
-/
def missing (tree : Tree) (here : Location) : List String → Nat
  | [] => 0
  | ".." :: rest => tree.missing here.dropLast rest
  | part :: rest =>
    match tree.node? (here ++ [part]) with
    | some (.directory _) => tree.missing (here ++ [part]) rest
    | some (.file _ _) => 0
    | _ => rest.length + 1

def makeDirectory (path : Path) : Op Tree Unit := do
  if hasNull path.text then .fail (.badValue .nullInPath)
  if path.isTooLong then fail .other
  match path.root with
  | .relative =>
    if maxMade < (← .current).missing [] path.parts then fail .tooDeep
    makeAll false [] path.parts
  | _ => fail .notFound

/-- (place path node) puts an entry into a directory, where there is no directory. -/
def place (path : Path) (node : Node) : Op Tree Unit := do
  let location ← located path
  match (← .current).node? location with
  | some (.directory _) => fail .isDirectory
  | _ => set location node

/-- (placeDeep path node) puts an entry into a directory that is made if needed. -/
def placeDeep (path : Path) (node : Node) : Op Tree Unit := do
  makeDirectory { path with parts := path.parts.dropLast }
  place path node

def write (path : Path) (content : ByteArray) (modified : Int) : Op Tree Unit :=
  place path (.file content modified)

def touch (path : Path) (modified : Int) : Op Tree Unit := do
  let location ← located path
  match (← .current).find path with
  | .ok (.file content _) => set location (.file content modified)
  | .ok _ => return ()
  | .error fault => fail fault

def delete (path : Path) : Op Tree Unit := do
  let location ← located path
  match (← .current).node? location with
  | none => fail .notFound
  | some _ => .change fun tree => { root := tree.root.erase location }

end Tree

end DeltaFeed.Store
