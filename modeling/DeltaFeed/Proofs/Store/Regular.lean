import DeltaFeed.Proofs.Store.Writing

/-! What the directories of a store are like: no two entries of a directory have the same name, and
no name is longer than a store takes. An empty store is like that, and whatever is done with a store
leaves it like that, also if it fails halfway.
-/

namespace DeltaFeed.Store

-----------------------------------------------------------------------------------------
-- Entries of directories
-----------------------------------------------------------------------------------------

/-- (AreShort names) holds of names that a store takes. -/
def AreShort (names : List String) : Prop :=
  ∀ name ∈ names, name.utf8ByteSize ≤ maxNameBytes

/-- (IsListing entries) holds of the entries that a directory can have. -/
structure IsListing (entries : List (String × Node)) : Prop where
  distinct : (keys entries).Nodup
  short : AreShort (keys entries)

variable {entries : List (String × Node)} {name : String} {node new below : Node}
  {here location : Location} {tree : Tree} {path : Path}

theorem isListing_nil
    : IsListing [] :=
  ⟨List.nodup_nil, List.forall_mem_nil _⟩

/-- A listing stays one when an entry with a short name is put in. -/
theorem IsListing.put (h : IsListing entries) (short : name.utf8ByteSize ≤ maxNameBytes)
    (node : Node)
    : IsListing (put name node entries) where
  distinct := nodup_keys_put h.distinct name node
  short other member := by
    rcases mem_keys_put.mp member with rfl | old
    · exact short
    · exact h.short other old

/-- A listing stays one when an entry is taken out. -/
theorem IsListing.without (h : IsListing entries) (name : String)
    : IsListing (without name entries) where
  distinct := nodup_keys_without h.distinct name
  short other member := by
    rw [keys_without] at member
    exact h.short other (List.mem_filter.mp member).1

-----------------------------------------------------------------------------------------
-- Regular nodes
-----------------------------------------------------------------------------------------

namespace Node

/-- (node.Regular) says that all directories from a node downwards have entries that directories can
have.
-/
def Regular (node : Node) : Prop :=
  ∀ location entries, at? location node = some (.directory entries) → IsListing entries

/-- A node is regular if its own entries are, and what is below it. -/
theorem regular_iff
    : node.Regular
      ↔ IsListing node.entries
        ∧ ∀ name below, node.entries.lookup name = some below → below.Regular := by
  constructor
  · intro regular
    constructor
    · cases node with
      | directory entries => exact regular [] entries rfl
      | file content modified => exact isListing_nil
      | dangling => exact isListing_nil
    · intro name below isBelow location entries found
      refine regular (name :: location) entries ?_
      rw [at?_cons, isBelow, Option.bind_some, found]
  · rintro ⟨own, others⟩ location entries found
    cases location with
    | nil =>
        obtain rfl := Option.some.inj found
        exact own
    | cons name rest =>
        rw [at?_cons] at found
        obtain ⟨below, isBelow, found⟩ := Option.bind_eq_some_iff.mp found
        exact others name below isBelow rest entries found

/-- What has no entries is regular. -/
theorem regular_leaf (noEntries : node.entries = [])
    : node.Regular := by
  refine regular_iff.mpr ⟨?_, ?_⟩
  · rw [noEntries]
    exact isListing_nil
  · rw [noEntries]
    nofun

/-- What is found below a regular node is regular, and so is the empty directory in its place. -/
theorem Regular.lookup (h : node.Regular) (name : String)
    : ((node.entries.lookup name).getD (directory [])).Regular := by
  cases found : node.entries.lookup name with
  | none => exact regular_leaf rfl
  | some below => exact (regular_iff.mp h).2 name below found

/-- A regular directory stays so when a regular node is put in. -/
theorem Regular.put (h : node.Regular) (short : name.utf8ByteSize ≤ maxNameBytes)
    (isNew : new.Regular)
    : (directory (put name new node.entries)).Regular := by
  obtain ⟨own, others⟩ := regular_iff.mp h
  refine regular_iff.mpr ⟨own.put short new, fun other below found => ?_⟩
  rw [entries, lookup_put] at found
  split at found
  case isTrue =>
    obtain rfl := Option.some.inj found
    exact isNew
  case isFalse => exact others other below found

/-- A regular directory stays so when an entry is taken out. -/
theorem Regular.without (h : node.Regular) (name : String)
    : (directory (without name node.entries)).Regular := by
  obtain ⟨own, others⟩ := regular_iff.mp h
  refine regular_iff.mpr ⟨own.without name, fun other below found => ?_⟩
  rw [entries, lookup_without] at found
  split at found
  case isTrue => cases found
  case isFalse => exact others other below found

/-- A tree stays regular when a regular node is set, by induction on the location. -/
theorem Regular.set (h : node.Regular) (short : AreShort location) (isNew : new.Regular)
    : (set location node new).Regular := by
  induction location generalizing node with
  | nil => exact isNew
  | cons name rest ih =>
      obtain ⟨first, later⟩ := List.forall_mem_cons.mp short
      exact h.put first (ih (h.lookup name) later)

/-- A tree stays regular when a node is erased, by induction on the location. -/
theorem Regular.erase (h : node.Regular) (short : AreShort location)
    : (erase location node).Regular := by
  induction location generalizing node with
  | nil => exact regular_leaf rfl
  | cons name rest ih =>
      obtain ⟨first, later⟩ := List.forall_mem_cons.mp short
      cases rest with
      | nil => exact h.without name
      | cons next more => exact h.put first (ih (h.lookup name) later)

end Node

-----------------------------------------------------------------------------------------
-- Changes of a store
-----------------------------------------------------------------------------------------

namespace Tree

/-- (tree.Regular) says that all directories of a store have entries that directories can have. -/
def Regular (tree : Tree) : Prop :=
  tree.root.Regular

/-- The entries of a directory in a regular tree are a listing. -/
theorem Regular.isListing (h : tree.Regular) (found : tree.find path = .ok (.directory entries))
    : IsListing entries := by
  obtain ⟨location, _, there⟩ := find_eq_directory.mp found
  exact h location entries there

/-- A path leads through names that a store takes. -/
theorem areShort_of_walk {parts : List String} (short : AreShort here)
    (led : tree.walk here parts = .ok location)
    : AreShort location := by
  induction parts generalizing here with
  | nil => exact Except.ok.inj led ▸ short
  | cons part rest ih =>
      rw [walk_cons_eq_ok] at led
      split at led
      case isTrue =>
        exact ih (fun name member => short name (List.dropLast_subset here member)) led.2
      case isFalse =>
        obtain ⟨_, fits, _, led⟩ := led
        refine ih (fun name member => ?_) led
        rcases List.mem_append.mp member with before | last
        · exact short name before
        · exact List.mem_singleton.mp last ▸ fits

/-- A path is located at names that are short. -/
theorem located_ensures (path : Path) (h : tree.Regular)
    : (located path).Ensures tree AreShort Regular := by
  unfold located
  dsimp only
  split
  case isTrue => exact ⟨nofun, h⟩
  case isFalse =>
    refine ⟨?_, ?_⟩
    · rw [Op.run_bind_current]
      cases led : tree.locate path with
      | error fault => nofun
      | ok location =>
          rintro _ ⟨⟩
          exact areShort_of_walk (List.forall_mem_nil _) (locate_eq_ok.mp led).2.2
    · rw [Op.run_bind_current]
      cases tree.locate path <;> exact h

/-- An operation on a located entry keeps a store regular if it does so at every location that a
path can have.
-/
theorem located_bind_preserves {next : Location → Op Tree Unit} (path : Path)
    (h : ∀ location, AreShort location → (next location).Preserves Regular)
    : (located path >>= next).Preserves Regular := by
  intro tree regular
  have after : (located path >>= next).Ensures tree (fun _ => True) Regular :=
    .bind (located_ensures path regular) fun location tree short regular =>
      ⟨fun _ _ => trivial, h location short tree regular⟩
  exact after.leaves

/-- Setting a regular node keeps a tree regular. -/
theorem set_preserves (short : AreShort location) (isNew : new.Regular)
    : (set location new).Preserves Regular :=
  fun _ h => Node.Regular.set h short isNew

/-- Making directories on the way keeps a tree regular, by induction on the names. -/
theorem makeAll_preserves {made : Bool} {parts : List String} (short : AreShort here)
    : (makeAll made here parts).Preserves Regular := by
  induction parts generalizing made here with
  | nil => exact .pure ()
  | cons part rest ih =>
      by_cases up : part = ".."
      · subst up
        rw [makeAll]
        split
        · exact fun _ h => h
        · exact ih fun name member => short name (List.dropLast_subset here member)
      · rw [makeAll.eq_3 made here part rest up]
        dsimp only
        split
        case isTrue => exact fun _ h => h
        case isFalse fits =>
          have shortToo : AreShort (here ++ [part]) := by
            intro name member
            rcases List.mem_append.mp member with before | last
            · exact short name before
            · exact List.mem_singleton.mp last ▸ Nat.not_lt.mp fits
          refine .bind .current fun tree => ?_
          cases tree.node? (here ++ [part]) with
          | none =>
              exact .bind (set_preserves shortToo (Node.regular_leaf rfl)) fun _ => ih shortToo
          | some node =>
              cases node with
              | directory entries => exact ih shortToo
              | file content modified => exact fun _ h => h
              | dangling => exact fun _ h => h

/-- Making a directory keeps a tree regular. -/
theorem makeDirectory_preserves (path : Path)
    : (makeDirectory path).Preserves Regular := by
  unfold makeDirectory
  dsimp only
  split
  case isTrue => exact fun _ h => h
  case isFalse =>
    split
    case isTrue => exact fun _ h => h
    case isFalse =>
      split
      · refine .bind .current fun tree => ?_
        split
        · exact fun _ h => h
        · exact makeAll_preserves (List.forall_mem_nil _)
      · exact fun _ h => h

/-- Placing a regular node keeps a tree regular. -/
theorem place_preserves (path : Path) (isNew : new.Regular)
    : (place path new).Preserves Regular := by
  refine located_bind_preserves path fun location short => .bind .current fun tree => ?_
  split
  · exact fun _ h => h
  · exact set_preserves short isNew

/-- Placing a node deep makes directories and then places it, and both keep a tree regular. -/
theorem placeDeep_preserves (path : Path) (isNew : new.Regular)
    : (placeDeep path new).Preserves Regular :=
  .bind (makeDirectory_preserves _) fun _ => place_preserves path isNew

/-- Touching a file keeps a tree regular. -/
theorem touch_preserves (path : Path) (modified : Int)
    : (touch path modified).Preserves Regular := by
  refine located_bind_preserves path fun location short => .bind .current fun tree => ?_
  split
  · exact set_preserves short (Node.regular_leaf rfl)
  · exact .pure ()
  · exact fun _ h => h

/-- Deleting a file keeps a tree regular. -/
theorem delete_preserves (path : Path)
    : (delete path).Preserves Regular := by
  refine located_bind_preserves path fun location short => .bind .current fun tree => ?_
  split
  · exact fun _ h => h
  · exact fun _ h => Node.Regular.erase h short

-----------------------------------------------------------------------------------------
-- Stores that are made
-----------------------------------------------------------------------------------------

/-- What is done with a store. -/
inductive Change where
  | makeDirectory (path : Path)
  | write (path : Path) (content : ByteArray) (modified : Int)
  | writeDeep (path : Path) (content : ByteArray) (modified : Int)
  | dangle (path : Path)
  | touch (path : Path) (modified : Int)
  | delete (path : Path)

def Change.op : Change → Op Tree Unit
  | makeDirectory path => Tree.makeDirectory path
  | write path content modified => Tree.write path content modified
  | writeDeep path content modified => Tree.placeDeep path (.file content modified)
  | dangle path => Tree.placeDeep path .dangling
  | touch path modified => Tree.touch path modified
  | delete path => Tree.delete path

/-- (made changes) is what changes make of an empty store, whether or not they fail. -/
def made (changes : List Change) : Tree :=
  changes.foldl (fun tree change => (change.op.run tree).state) {}

/-- A change leaves a regular store regular. -/
theorem Change.op_preserves (change : Change)
    : change.op.Preserves Regular := by
  cases change with
  | makeDirectory path => exact makeDirectory_preserves path
  | write path content modified => exact place_preserves path (Node.regular_leaf rfl)
  | writeDeep path content modified => exact placeDeep_preserves path (Node.regular_leaf rfl)
  | dangle path => exact placeDeep_preserves path (Node.regular_leaf rfl)
  | touch path modified => exact touch_preserves path modified
  | delete path => exact delete_preserves path

/-- Every store that is made is regular. -/
theorem regular_made (changes : List Change)
    : (made changes).Regular := by
  have kept (tree : Tree) (h : tree.Regular)
      : (changes.foldl (fun tree change => (change.op.run tree).state) tree).Regular := by
    induction changes generalizing tree with
    | nil => exact h
    | cons change rest ih => exact ih _ (change.op_preserves tree h)
  exact kept {} (Node.regular_leaf rfl)

end Tree

end DeltaFeed.Store
