import DeltaFeed.Proofs.Entries
import DeltaFeed.Proofs.Outcome
import DeltaFeed.Store.Tree

/-! Making a directory and writing files into it. No directory is lost when an entry is set where
no directory is, so that a path leads where it led before, and what was written is found there.
-/

namespace DeltaFeed.Store

-----------------------------------------------------------------------------------------
-- Entries that are set
-----------------------------------------------------------------------------------------

namespace Node

variable {root new node : Node} {name : String} {entries : List (String × Node)}

theorem at?_cons (name : String) (rest : Location) (node : Node)
    : at? (name :: rest) node = (node.entries.lookup name).bind (at? rest) := rfl

/-- What is at a longer location is below what is at the shorter one. -/
theorem at?_append (location more : Location) (node : Node)
    : at? (location ++ more) node = (at? location node).bind (at? more) := by
  induction location generalizing node with
  | nil => rfl
  | cons name rest ih =>
      rw [List.cons_append, at?_cons, at?_cons, Option.bind_assoc]
      exact congrArg _ (funext ih)

/-- What is set is found. -/
theorem at?_set (location : Location) (root new : Node)
    : at? location (set location root new) = some new := by
  induction location generalizing root with
  | nil => rfl
  | cons name rest ih =>
      rw [set, at?_cons, entries, lookup_put, if_pos rfl]
      exact ih _

/-- The directory in which an entry is set keeps its other entries. -/
theorem at?_set_parent {here : Location} (there : at? here root = some (.directory entries))
    : at? here (set (here ++ [name]) root new) = some (.directory (put name new entries)) := by
  induction here generalizing root with
  | nil =>
      obtain rfl := Option.some.inj there
      rfl
  | cons first rest ih =>
      rw [at?_cons] at there
      obtain ⟨below, isBelow, there⟩ := Option.bind_eq_some_iff.mp there
      rw [List.cons_append, set, isBelow, at?_cons]
      simp only [Node.entries, lookup_put, if_pos, Option.bind_some, Option.getD_some]
      exact ih there

/-- (node.IsDirectory location) says that there is a directory at a location below a node. -/
def IsDirectory (node : Node) (location : Location) : Prop :=
  ∃ entries, at? location node = some (.directory entries)

/-- A location is a directory if its first name is an entry that has the rest as one. -/
theorem IsDirectory.cons_iff {first : String} {rest : Location}
    : node.IsDirectory (first :: rest)
      ↔ ∃ below, node.entries.lookup first = some below ∧ below.IsDirectory rest := by
  simp only [IsDirectory, at?_cons, Option.bind_eq_some_iff]
  constructor
  · rintro ⟨entries, below, isBelow, there⟩
    exact ⟨below, isBelow, entries, there⟩
  · rintro ⟨below, isBelow, entries, there⟩
    exact ⟨entries, below, isBelow, there⟩

/-- What has entries is a directory. -/
theorem isDirectory_of_lookup {below : Node} (isBelow : node.entries.lookup name = some below)
    : node.IsDirectory [] := by
  cases node with
  | directory entries => exact ⟨entries, rfl⟩
  | file content modified => cases isBelow
  | dangling => cases isBelow

/-- What is no directory has nothing below it. -/
theorem not_isDirectory_of_entries {location : Location} (noDirectory : ¬node.IsDirectory [])
    : ¬node.IsDirectory location := by
  cases location with
  | nil => exact noDirectory
  | cons first rest =>
      intro isDirectory
      obtain ⟨below, isBelow, _⟩ := IsDirectory.cons_iff.mp isDirectory
      exact noDirectory (isDirectory_of_lookup isBelow)

/-- A directory is in a directory. -/
theorem IsDirectory.dropLast {location : Location} (isDirectory : node.IsDirectory location)
    : node.IsDirectory location.dropLast := by
  induction location generalizing node with
  | nil => exact isDirectory
  | cons first rest ih =>
      obtain ⟨below, isBelow, there⟩ := cons_iff.mp isDirectory
      cases rest with
      | nil => exact isDirectory_of_lookup isBelow
      | cons next more => exact cons_iff.mpr ⟨below, isBelow, ih there⟩

/-- No directory is lost when an entry is set where no directory is. -/
theorem IsDirectory.set {here location : Location} (parent : root.IsDirectory here)
    (free : ¬root.IsDirectory (here ++ [name])) (isDirectory : root.IsDirectory location)
    : (Node.set (here ++ [name]) root new).IsDirectory location := by
  induction here generalizing root location with
  | nil =>
      cases location with
      | nil => exact ⟨_, rfl⟩
      | cons first rest =>
          obtain ⟨below, isBelow, there⟩ := cons_iff.mp isDirectory
          have other : first ≠ name := by
            rintro rfl
            refine not_isDirectory_of_entries (fun ⟨entries, atBelow⟩ => free ?_) there
            exact cons_iff.mpr ⟨below, isBelow, entries, atBelow⟩
          refine cons_iff.mpr ⟨below, ?_, there⟩
          rw [List.nil_append, Node.set, Node.entries, lookup_put, if_neg other]
          exact isBelow
  | cons next inner ih =>
      obtain ⟨child, isChild, inChild⟩ := cons_iff.mp parent
      cases location with
      | nil => exact ⟨_, rfl⟩
      | cons first rest =>
          obtain ⟨below, isBelow, there⟩ := cons_iff.mp isDirectory
          rw [List.cons_append, Node.set, isChild, Option.getD_some]
          by_cases same : first = next
          · subst same
            obtain rfl := Option.some.inj (isChild.symm.trans isBelow)
            refine cons_iff.mpr ⟨_, by rw [Node.entries, lookup_put, if_pos rfl], ?_⟩
            refine ih inChild (fun taken => free ?_) there
            exact cons_iff.mpr ⟨_, isChild, taken⟩
          · refine cons_iff.mpr ⟨below, ?_, there⟩
            rw [Node.entries, lookup_put, if_neg same]
            exact isBelow

end Node

-----------------------------------------------------------------------------------------
-- Texts of paths
-----------------------------------------------------------------------------------------

/-- Joining pieces adds no characters but those that stop them. -/
theorem mem_flatten_intersperse {c stop : Char} (other : c ≠ stop) (pieces : List (List Char))
    : c ∈ (pieces.intersperse [stop]).flatten ↔ ∃ piece ∈ pieces, c ∈ piece := by
  induction pieces with
  | nil => simp
  | cons piece rest ih =>
      cases rest with
      | nil => simp
      | cons next more =>
          rw [List.intersperse_cons_cons, List.flatten_cons, List.flatten_cons, List.mem_append,
            List.mem_append, ih]
          simp [other]

/-- The text of a path has a null character if one of its parts has one. -/
theorem hasNull_text (path : Path)
    : hasNull path.text = true ↔ ∃ part ∈ path.parts, hasNull part = true := by
  have start : '\x00' ∉ path.root.chars := by
    cases path.root <;> decide
  have inside := mem_flatten_intersperse (show '\x00' ≠ '/' by decide)
    (path.parts.map String.toList)
  have pieces : (∃ piece ∈ path.parts.map String.toList, '\x00' ∈ piece)
      ↔ ∃ part ∈ path.parts, hasNull part = true := by
    simp only [List.mem_map, hasNull, List.contains_iff_mem]
    constructor
    · rintro ⟨_, ⟨part, member, rfl⟩, null⟩
      exact ⟨part, member, null⟩
    · rintro ⟨part, member, null⟩
      exact ⟨_, ⟨part, member, rfl⟩, null⟩
  rw [← pieces, ← inside, Path.text]
  split
  case isTrue empty =>
    rw [List.isEmpty_iff, List.append_eq_nil_iff] at empty
    rw [empty.2]
    decide
  case isFalse => simp [hasNull, start]

/-- (IsName name) holds of the names that an entry of a directory can have. -/
structure IsName (name : String) : Prop where
  notUp : name ≠ ".."
  noNull : hasNull name = false
  short : name.utf8ByteSize ≤ maxNameBytes

def Path.entry (path : Path) (name : String) : Path :=
  { path with parts := path.parts ++ [name] }

namespace Tree

variable {tree before after : Tree} {here location : Location} {name : String} {node : Node}
  {entries : List (String × Node)}

/-- (tree.IsDirectory location) says that there is a directory at a location of a store. -/
def IsDirectory (tree : Tree) (location : Location) : Prop :=
  tree.root.IsDirectory location

/-- (KeepsDirectories before after) says that no directory of a store is lost. -/
def KeepsDirectories (before after : Tree) : Prop :=
  ∀ location, before.IsDirectory location → after.IsDirectory location

/-- (tree.with location node) is a store in which an entry was set. -/
def withEntry (tree : Tree) (location : Location) (node : Node) : Tree :=
  { root := tree.root.set location node }

/-- A new entry where no directory is keeps all directories. -/
theorem keepsDirectories_withEntry (parent : tree.IsDirectory here)
    (free : ¬tree.IsDirectory (here ++ [name]))
    : KeepsDirectories tree (tree.withEntry (here ++ [name]) node) :=
  fun _ isDirectory => Node.IsDirectory.set parent free isDirectory

/-- A new entry is found at its location. -/
theorem node?_withEntry (tree : Tree) (location : Location) (node : Node)
    : (tree.withEntry location node).node? location = some node :=
  Node.at?_set location tree.root node

/-- A new entry is put into the entries of its directory. -/
theorem node?_withEntry_parent (there : tree.node? here = some (.directory entries))
    : (tree.withEntry (here ++ [name]) node).node? here
      = some (.directory (put name node entries)) :=
  Node.at?_set_parent there

/-- What is below a directory is one of its entries. -/
theorem node?_child (there : tree.node? here = some (.directory entries)) (name : String)
    : tree.node? (here ++ [name]) = entries.lookup name := by
  have below := Node.at?_append here [name] tree.root
  rw [node?] at there
  rw [there] at below
  rw [node?, below]
  simp [Node.at?, Node.entries]

-----------------------------------------------------------------------------------------
-- Where paths lead
-----------------------------------------------------------------------------------------

/-- A path leads on from its first part, where a directory has to be unless the path ends there. -/
theorem walk_cons_eq_ok {part : String} {rest : List String}
    : tree.walk here (part :: rest) = .ok location
      ↔ if part = ".." then here ≠ [] ∧ tree.walk here.dropLast rest = .ok location
        else
          hasNull part = false
          ∧ part.utf8ByteSize ≤ maxNameBytes
          ∧ (rest ≠ [] → tree.IsDirectory (here ++ [part]))
          ∧ tree.walk (here ++ [part]) rest = .ok location := by
  by_cases up : part = ".."
  · subst up
    rw [walk, if_pos rfl]
    cases here <;> simp
  · rw [walk, if_neg up]
    · by_cases null : hasNull part = true
      · simp [null]
      · by_cases long : maxNameBytes < part.utf8ByteSize
        · simp [null, long, Nat.not_le.mpr long]
        · rw [if_neg null, if_neg long]
          simp only [null, Nat.not_lt.mp long, true_and]
          cases rest with
          | nil => simp [walk]
          | cons next more =>
              have there : tree.IsDirectory (here ++ [part])
                  ↔ ∃ entries, tree.node? (here ++ [part]) = some (.directory entries) := Iff.rfl
              rw [there]
              rcases tree.node? (here ++ [part]) with _ | ⟨_ | _ | _⟩ <;> simp
    · exact up

/-- A path leads where it led as long as no directory is lost. -/
theorem walk_of_keepsDirectories (kept : KeepsDirectories before after) {parts : List String}
    (led : before.walk here parts = .ok location)
    : after.walk here parts = .ok location := by
  induction parts generalizing here with
  | nil => exact led
  | cons part rest ih =>
      rw [walk_cons_eq_ok] at led ⊢
      split at led
      case isTrue up => exact if_pos up ▸ led.imp_right ih
      case isFalse down =>
        obtain ⟨noNull, short, inDirectory, led⟩ := led
        rw [if_neg down]
        exact ⟨noNull, short, fun more => kept _ (inDirectory more), ih led⟩

/-- An entry of a directory is reached from where the path of the directory leads. -/
theorem walk_append {parts : List String} (led : tree.walk here parts = .ok location)
    (isDirectory : tree.IsDirectory location) (notUp : name ≠ "..") (noNull : hasNull name = false)
    (short : name.utf8ByteSize ≤ maxNameBytes)
    : tree.walk here (parts ++ [name]) = .ok (location ++ [name]) := by
  induction parts generalizing here with
  | nil =>
      obtain rfl := Except.ok.inj led
      rw [List.nil_append, walk_cons_eq_ok, if_neg notUp]
      exact ⟨noNull, short, fun some => absurd rfl some, rfl⟩
  | cons part rest ih =>
      rw [List.cons_append, walk_cons_eq_ok]
      rw [walk_cons_eq_ok] at led
      split at led
      case isTrue up => exact if_pos up ▸ led.imp_right ih
      case isFalse down =>
        obtain ⟨noNull, short, inDirectory, led⟩ := led
        rw [if_neg down]
        refine ⟨noNull, short, fun _ => ?_, ih led⟩
        cases rest with
        | nil => exact Except.ok.inj led ▸ isDirectory
        | cons next more => exact inDirectory (List.cons_ne_nil next more)

-----------------------------------------------------------------------------------------
-- Directories that are made
-----------------------------------------------------------------------------------------

/-- A step into a directory that is made if needed loses no directory. -/
theorem makeAll_cons {made : Bool} {part : String} {rest : List String} (down : part ≠ "..")
    (parent : tree.IsDirectory here)
    (done : ((makeAll made here (part :: rest)).run tree).result = .ok ())
    : part.utf8ByteSize ≤ maxNameBytes
      ∧ ∃ made' middle,
          KeepsDirectories tree middle
          ∧ middle.IsDirectory (here ++ [part])
          ∧ (makeAll made here (part :: rest)).run tree
            = (makeAll made' (here ++ [part]) rest).run middle := by
  rw [makeAll.eq_3 made here part rest down] at done ⊢
  split at done
  case isTrue => cases done
  case isFalse fits =>
    refine ⟨Nat.not_lt.mp fits, ?_⟩
    rw [if_neg fits]
    dsimp only at done ⊢
    rw [Op.run_bind_current] at done ⊢
    cases found : tree.node? (here ++ [part]) with
    | none =>
        have free : ¬tree.IsDirectory (here ++ [part]) := by
          rintro ⟨entries, there⟩
          rw [node?, there] at found
          cases found
        exact ⟨true, tree.withEntry (here ++ [part]) (.directory []),
          keepsDirectories_withEntry parent free, ⟨[], node?_withEntry _ _ _⟩, rfl⟩
    | some node =>
        rw [found] at done
        cases node with
        | directory entries =>
            exact ⟨made, tree, fun _ isDirectory => isDirectory, ⟨entries, found⟩, rfl⟩
        | file content modified => cases done
        | dangling => cases done

/-- The directories that are made are there, and none is lost. -/
theorem makeAll_leads {made : Bool} {parts : List String} (start : tree.IsDirectory here)
    (noNull : ∀ part ∈ parts, hasNull part = false)
    (done : ((makeAll made here parts).run tree).result = .ok ())
    : KeepsDirectories tree ((makeAll made here parts).run tree).state
      ∧ ∃ location,
          ((makeAll made here parts).run tree).state.walk here parts = .ok location
          ∧ ((makeAll made here parts).run tree).state.IsDirectory location := by
  induction parts generalizing made here tree with
  | nil => exact ⟨fun _ isDirectory => isDirectory, here, rfl, start⟩
  | cons part rest ih =>
      have later := fun p member => noNull p (List.mem_cons_of_mem part member)
      by_cases up : part = ".."
      · subst up
        rw [makeAll] at done ⊢
        split at done
        case isTrue => cases done
        case isFalse inside =>
          rw [if_neg inside]
          obtain ⟨kept, location, led, there⟩ := ih start.dropLast later done
          refine ⟨kept, location, ?_, there⟩
          rw [walk_cons_eq_ok, if_pos rfl]
          exact ⟨by simpa using inside, led⟩
      · obtain ⟨short, made', middle, kept, inDirectory, same⟩ := makeAll_cons up start done
        rw [same] at done ⊢
        obtain ⟨keptLater, location, led, there⟩ := ih inDirectory later done
        refine ⟨fun _ isDirectory => keptLater _ (kept _ isDirectory), location, ?_, there⟩
        rw [walk_cons_eq_ok, if_neg up]
        exact ⟨noNull part List.mem_cons_self, short, fun _ => keptLater _ inDirectory, led⟩

/-- Nothing but the parts of a path that leads down is made. -/
theorem makeDirectory_run {path : Path} (done : ((makeDirectory path).run tree).result = .ok ())
    : hasNull path.text = false
      ∧ path.isTooLong = false
      ∧ path.root = .relative
      ∧ (makeDirectory path).run tree = (makeAll false [] path.parts).run tree := by
  unfold makeDirectory at done ⊢
  dsimp only at done ⊢
  split at done
  case isTrue => cases done
  case isFalse noNull =>
    rw [if_neg noNull]
    split at done
    case isTrue => cases done
    case isFalse short =>
      rw [if_neg short]
      cases root : path.root with
      | absolute =>
          rw [root] at done
          cases done
      | double =>
          rw [root] at done
          cases done
      | relative =>
          rw [root] at done
          dsimp only at done ⊢
          rw [Op.run_bind_current] at done ⊢
          split at done
          case isTrue => cases done
          case isFalse shallow =>
            rw [if_neg shallow]
            exact ⟨by simpa using noNull, by simpa using short, rfl, rfl⟩

/-- A path is located if it is short and relative, and if its parts can be walked. -/
theorem locate_eq_ok {path : Path}
    : tree.locate path = .ok location
      ↔ path.isTooLong = false
        ∧ path.root = .relative
        ∧ tree.walk [] path.parts = .ok location := by
  unfold locate
  cases path.isTooLong with
  | true => simp
  | false => cases path.root <;> simp

/-- A directory is found at a path if it is at the location of the path. -/
theorem find_eq_directory {path : Path}
    : tree.find path = .ok (.directory entries)
      ↔ ∃ location,
          tree.locate path = .ok location ∧ tree.node? location = some (.directory entries) := by
  unfold find
  cases tree.locate path with
  | error fault => simp [bind, Except.bind]
  | ok location =>
      simp only [bind, Except.bind, Except.ok.injEq, exists_eq_left']
      rcases tree.node? location with _ | ⟨_ | _ | _⟩ <;> simp

/-- The path of a directory that is made leads to a directory. -/
theorem find_of_makeDirectory {path : Path} (start : tree.IsDirectory [])
    (done : ((makeDirectory path).run tree).result = .ok ())
    : hasNull path.text = false
      ∧ ∃ entries,
          ((makeDirectory path).run tree).state.find path = .ok (.directory entries) := by
  obtain ⟨noNull, short, root, same⟩ := makeDirectory_run done
  have clean : ∀ part ∈ path.parts, hasNull part = false := fun part member =>
    Bool.eq_false_iff.mpr fun null =>
      Bool.false_ne_true (noNull ▸ (hasNull_text path).mpr ⟨part, member, null⟩)
  rw [same] at done ⊢
  obtain ⟨_, location, led, entries, there⟩ := makeAll_leads start clean done
  exact ⟨noNull, entries, find_eq_directory.mpr
    ⟨location, locate_eq_ok.mpr ⟨short, root, led⟩, there⟩⟩

-----------------------------------------------------------------------------------------
-- Files that are written
-----------------------------------------------------------------------------------------

variable {path : Path} {content : ByteArray} {modified : Int}

/-- An entry of a directory is located in the directory. -/
theorem locate_entry (found : tree.find path = .ok (.directory entries)) (isName : IsName name)
    (short : (path.entry name).isTooLong = false)
    : ∃ location,
        tree.locate path = .ok location
        ∧ tree.node? location = some (.directory entries)
        ∧ tree.locate (path.entry name) = .ok (location ++ [name]) := by
  obtain ⟨location, located, there⟩ := find_eq_directory.mp found
  obtain ⟨_, root, led⟩ := locate_eq_ok.mp located
  refine ⟨location, located, there, locate_eq_ok.mpr ⟨short, root, ?_⟩⟩
  exact walk_append led ⟨entries, there⟩ isName.notUp isName.noNull isName.short

/-- A file that a directory lists is found. -/
theorem find_file (found : tree.find path = .ok (.directory entries)) (isName : IsName name)
    (short : (path.entry name).isTooLong = false)
    (listed : entries.lookup name = some (.file content modified))
    : tree.find (path.entry name) = .ok (.file content modified) := by
  obtain ⟨location, _, there, located⟩ := locate_entry found isName short
  rw [find, located]
  simp only [bind, Except.bind, node?_child there, listed]

/-- A new file comes last in its directory. -/
theorem write_yields (found : tree.find path = .ok (.directory entries))
    (noNull : hasNull path.text = false) (isName : IsName name)
    (short : (path.entry name).isTooLong = false) (new : name ∉ keys entries)
    (content : ByteArray) (modified : Int)
    : (write (path.entry name) content modified).Yields tree (.ok ())
        (·.find path = .ok (.directory (entries ++ [(name, .file content modified)]))) := by
  obtain ⟨location, located, there, locatedEntry⟩ := locate_entry found isName short
  have unlisted : tree.node? (location ++ [name]) = none := by
    rw [node?_child there]
    exact lookup_eq_none_of_not_mem_keys new
  have free : ¬tree.IsDirectory (location ++ [name]) := by
    rintro ⟨entries, taken⟩
    rw [node?, taken] at unlisted
    cases unlisted
  have clean : hasNull (path.entry name).text = false := by
    refine Bool.eq_false_iff.mpr fun null => ?_
    obtain ⟨part, member, null⟩ := (hasNull_text _).mp null
    rcases List.mem_append.mp member with member | member
    · exact Bool.false_ne_true (noNull ▸ (hasNull_text path).mpr ⟨part, member, null⟩)
    · rw [List.mem_singleton.mp member, isName.noNull] at null
      cases null
  have reached : (Tree.located (path.entry name)).Yields tree (.ok (location ++ [name]))
      (· = tree) := by
    unfold Tree.located
    rw [if_neg (by simp [clean])]
    apply Op.Yields.bind_current
    rw [locatedEntry]
    exact .pure _ rfl
  refine .bind reached ?_
  rintro _ rfl
  apply Op.Yields.bind_current
  rw [unlisted]
  refine .change _ ?_
  obtain ⟨fits, root, led⟩ := locate_eq_ok.mp located
  refine find_eq_directory.mpr ⟨location, locate_eq_ok.mpr ⟨fits, root, ?_⟩, ?_⟩
  · exact walk_of_keepsDirectories (keepsDirectories_withEntry ⟨entries, there⟩ free) led
  · rw [← put_of_not_mem_keys new]
    exact node?_withEntry_parent there

end Tree

end DeltaFeed.Store
