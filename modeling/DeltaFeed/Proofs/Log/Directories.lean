import DeltaFeed.Proofs.Entries
import DeltaFeed.Proofs.Log.Listing
import DeltaFeed.Proofs.Text.Digits

/-! Logs as directories of files. No two versions have the same file, so that the files that are
added to a directory or removed from it tell which versions come and go.
-/

namespace DeltaFeed

-----------------------------------------------------------------------------------------
-- Names of commit files
-----------------------------------------------------------------------------------------

namespace Store.Path

/-- A name without slashes is a path of one part. -/
theorem ofText_eq_name {name : String} (noSlash : '/' ∉ name.toList) (some : name.toList ≠ [])
    (notDot : name.toList ≠ ['.'])
    : ofText name = { root := .relative, parts := [name] } := by
  have first : name.toList.takeWhile (· == '/') = [] := by
    cases text : name.toList with
    | nil => rfl
    | cons c rest =>
        rw [text] at noSlash
        have := (not_or.mp (mt List.mem_cons.mpr noSlash)).1
        simp [Ne.symm this]
  rw [ofText, List.splitOn_eq_singleton noSlash, rootOf, first]
  simp [some, notDot]

end Store.Path

namespace Log

open Store (Tree Node Path)

theorem toList_fileName (digits : Nat) (v : Int)
    : (fileName digits v).toList = Text.signedPadded digits v ++ extension := by
  simp [fileName, extension]

theorem fileName_inj {digits : Nat} {v w : Int} (h : fileName digits v = fileName digits w)
    : v = w := by
  have same := congrArg String.toList h
  rw [toList_fileName, toList_fileName] at same
  exact Text.signedPadded_inj (List.append_cancel_right same)

theorem file_eq (place : Place) (v : Int)
    : place.file v
      = { place.directory with
            parts := place.directory.parts ++ [fileName place.digits v] } := by
  have long : 5 ≤ (fileName place.digits v).toList.length := by
    simp [toList_fileName, extension]
  have noSlash : '/' ∉ (fileName place.digits v).toList := by
    intro slash
    rw [toList_fileName] at slash
    rcases List.mem_append.mp slash with numeral | ending
    · rcases Text.isDigit_of_mem_signedPadded numeral with digit | minus
      · cases digit
      · exact absurd minus (by decide)
    · exact absurd ending (by decide)
  rw [Place.file, Path.child, Path.ofText_eq_name noSlash]
  · rfl
  · intro none
    simp [none] at long
  · intro dot
    simp [dot] at long

-----------------------------------------------------------------------------------------
-- Stores with a log
-----------------------------------------------------------------------------------------

/-- (storeOf entries) is a store with the directory of a log and nothing else. -/
def storeOf (entries : List (String × Node)) : Tree :=
  { root := .directory [("_delta_log", .directory entries)] }

/-- The place of the log of such a store, under the standard settings. -/
def topPlace : Place :=
  .ofBase {} { root := .relative, parts := [] }

variable {entries before after : List (String × Node)} {v first : Int}

theorem fileName_ne_up (digits : Nat) (v : Int)
    : fileName digits v ≠ ".." := by
  intro same
  have size := congrArg (·.toList.length) same
  simp [toList_fileName, extension] at size

theorem walk_file (entries : List (String × Node)) (v : Int)
    : (storeOf entries).walk [] ["_delta_log", fileName topPlace.digits v]
      = if Store.hasNull (fileName topPlace.digits v) then .error .notFound
        else if Store.maxNameBytes < (fileName topPlace.digits v).utf8ByteSize then .error .other
        else .ok ["_delta_log", fileName topPlace.digits v] := by
  have notUp := fileName_ne_up topPlace.digits v
  generalize fileName topPlace.digits v = name at notUp ⊢
  have here : (storeOf entries).node? ["_delta_log"] = some (.directory entries) := rfl
  have below : (storeOf entries).walk ["_delta_log"] [name]
      = if Store.hasNull name then .error .notFound
        else if Store.maxNameBytes < name.utf8ByteSize then .error .other
        else .ok ["_delta_log", name] := by
    rw [Tree.walk]
    · rfl
    · exact notUp
  rw [Tree.walk, if_neg (by decide), if_neg (by decide)]
  · exact below
  · decide

/-- Whether the file of a version can be reached does not depend on the files that are there. -/
theorem locate_file (entries : List (String × Node)) (v : Int)
    : (storeOf entries).locate (topPlace.file v)
      = if (topPlace.file v).isTooLong then .error .other
        else if Store.hasNull (fileName topPlace.digits v) then .error .notFound
        else if Store.maxNameBytes < (fileName topPlace.digits v).utf8ByteSize then .error .other
        else .ok ["_delta_log", fileName topPlace.digits v] := by
  have path : topPlace.file v
      = { root := .relative, parts := ["_delta_log", fileName topPlace.digits v] } :=
    file_eq topPlace v
  rw [Tree.locate, ← walk_file entries v, path]

theorem node?_file (entries : List (String × Node)) (name : String)
    : (storeOf entries).node? ["_delta_log", name] = entries.lookup name := by
  simp [storeOf, Tree.node?, Node.at?, Node.entries]

/-- A file is found where its directory lists it. -/
theorem find_file_congr
    (same
      : after.lookup (fileName topPlace.digits v) = before.lookup (fileName topPlace.digits v))
    : (storeOf after).find (topPlace.file v) = (storeOf before).find (topPlace.file v) := by
  unfold Tree.find
  rw [locate_file, locate_file]
  split
  · rfl
  · split
    · rfl
    · split
      · rfl
      · simp only [bind, Except.bind, node?_file, same]

/-- A file that can be reached is found as its directory lists it. -/
theorem find_storeOf {content : ByteArray} {nanos : Int}
    (located
      : (storeOf []).locate (topPlace.file v) = .ok ["_delta_log", fileName topPlace.digits v])
    (listed : entries.lookup (fileName topPlace.digits v) = some (.file content nanos))
    : (storeOf entries).find (topPlace.file v) = .ok (.file content nanos) := by
  rw [locate_file, ← locate_file entries] at located
  unfold Tree.find
  simp only [located, bind, Except.bind, node?_file, listed]

/-- What a directory does not list is not found. -/
theorem not_find_file (absent : fileName topPlace.digits v ∉ keys before) (node : Node)
    : (storeOf before).find (topPlace.file v) ≠ .ok node := by
  have unlisted : before.lookup (fileName topPlace.digits v) = none :=
    lookup_eq_none_of_not_mem_keys absent
  unfold Tree.find
  rw [locate_file]
  split
  · nofun
  · split
    · nofun
    · split
      · nofun
      · simp [bind, Except.bind, node?_file, unlisted]

def filesOf (versions : List (Int × Node)) : List (String × Node) :=
  versions.map fun (v, node) => (fileName topPlace.digits v, node)

/-- Adding the files of versions makes a log grow. -/
theorem grows_storeOf {added : List (Int × Node)}
    (listing
      : committed (storeOf (before ++ filesOf added)) topPlace
        = committed (storeOf before) topPlace ++ keys added)
    (above : ∀ v ∈ keys added, ∀ u ∈ committed (storeOf before) topPlace, u < v)
    (absent : ∀ v ∈ keys added, fileName topPlace.digits v ∉ keys before)
    : Grows topPlace (storeOf before) (storeOf (before ++ filesOf added)) (keys added) where
  listing := listing
  above := above
  absent v member node := not_find_file (absent v member) node
  untouched v other := by
    have unlisted : (filesOf added).lookup (fileName topPlace.digits v) = none := by
      apply List.lookup_eq_none_iff.mpr
      intro entry member
      obtain ⟨⟨u, node⟩, isAdded, rfl⟩ := List.mem_map.mp member
      have different : v ≠ u := fun same => other (same ▸ List.mem_map_of_mem isAdded)
      simpa using mt fileName_inj different
    exact find_file_congr (by rw [List.lookup_append, unlisted, Option.or_none])

/-- Removing the files of versions below one that remains trims a log. -/
theorem trims_storeOf {removed : List Int} (remains : first ∈ committed (storeOf before) topPlace)
    (deleted : ∀ v ∈ removed, v ∈ committed (storeOf before) topPlace ∧ v < first)
    (listing
      : committed
          (storeOf (before.filter fun entry => entry.1 ∉ removed.map (fileName topPlace.digits)))
          topPlace
        = (committed (storeOf before) topPlace).filter (first ≤ ·))
    : Trims topPlace (storeOf before)
        (storeOf (before.filter fun entry => entry.1 ∉ removed.map (fileName topPlace.digits)))
        first where
  remains := remains
  listing := listing
  untouched v stays := by
    have kept : fileName topPlace.digits v ∉ removed.map (fileName topPlace.digits) := by
      intro member
      obtain ⟨u, isRemoved, same⟩ := List.mem_map.mp member
      obtain rfl := fileName_inj same
      have := stays (deleted u isRemoved).1
      have := (deleted u isRemoved).2
      omega
    refine find_file_congr ?_
    rw [lookup_filter_keys (fun name => decide (name ∉ removed.map (fileName topPlace.digits))),
      if_pos (decide_eq_true kept)]

-----------------------------------------------------------------------------------------
-- A log of three commits
-----------------------------------------------------------------------------------------

/-- (commitFile text millis) is a commit file that was modified at a time in milliseconds. -/
def commitFile (text : String) (millis : Int) : Node :=
  .file text.toUTF8 (1000000 * millis)

/-- The first file of the log: it records the table and two data files. -/
def sampleStart : List (Int × Node) :=
  [(0, commitFile
    ("\n".intercalate
      [r#"{"metaData":{"id":"t"}}"#, r#"{"add":{"path":"a"}}"#, r#"{"add":{"path":"b"}}"#])
    1700000000000)]

/-- The files after it. The clock of the first of them is behind: it attaches a deletion vector
to a file, and then the other file is removed.
-/
def sampleRest : List (Int × Node) :=
  [(1, commitFile
      ("\n".intercalate
        [r#"{"remove":{"path":"a"}}"#,
          r#"{"add":{"path":"a","deletionVector":{"storageType":"u","pathOrInlineDv":"x"}}}"#])
      1600000000000),
    (2, commitFile r#"{"remove":{"path":"b"}}"# 1700000000123)]

def sampleTree : Tree :=
  storeOf (filesOf sampleStart ++ filesOf sampleRest)

theorem grows_sampleTree
    : Grows topPlace (storeOf (filesOf sampleStart)) sampleTree (keys sampleRest) :=
  grows_storeOf (by decide +kernel) (by decide +kernel) (by decide +kernel)

end Log

end DeltaFeed
