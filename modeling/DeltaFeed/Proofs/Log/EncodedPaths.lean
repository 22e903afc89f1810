import DeltaFeed.Proofs.Feed.SnapshotContents
import DeltaFeed.Proofs.Text.Percent

/-! The paths of data files, however a log writes them. A path below the root of a table is decoded
once, so that its encodings lead to one place and those of another path elsewhere. Listings go by
these places: the removal of a file drops it although its addition was written in another way.
-/

namespace DeltaFeed

-----------------------------------------------------------------------------------------
-- Roots of tables
-----------------------------------------------------------------------------------------

namespace Text

variable {stop : Char} {text : List Char}

/-- All that is dropped from the end of a text is the one character, and there is no more of it. -/
theorem exists_dropTrailing (stop : Char) (text : List Char)
    : (∃ n, text = dropTrailing stop text ++ List.replicate n stop)
      ∧ (dropTrailing stop text).getLast? ≠ some stop := by
  constructor
  · refine ⟨(text.reverse.takeWhile (· == stop)).length, ?_⟩
    have same : text.reverse.takeWhile (· == stop)
        = List.replicate (text.reverse.takeWhile (· == stop)).length stop :=
      List.eq_replicate_of_mem fun c member => by simpa using List.mem_takeWhile_imp member
    have parts := List.takeWhile_append_dropWhile (p := (· == stop)) (l := text.reverse)
    rw [same] at parts
    rw [dropTrailing, ← List.reverse_replicate, ← List.reverse_append, parts, List.reverse_reverse]
  · intro last
    have first := List.head?_dropWhile_not (· == stop) text.reverse
    rw [dropTrailing, List.getLast?_reverse] at last
    rw [last] at first
    simp at first

/-- A text without the character at its end is what is left if any number of it are appended. -/
theorem dropTrailing_append_replicate (last : text.getLast? ≠ some stop) (n : Nat)
    : dropTrailing stop (text ++ List.replicate n stop) = text := by
  have kept : text.reverse.dropWhile (· == stop) = text.reverse := by
    cases reversed : text.reverse with
    | nil => rfl
    | cons c rest =>
        rw [← List.head?_reverse, reversed] at last
        refine List.dropWhile_cons_of_neg ?_
        simpa using last
  have dropped : (List.replicate n stop).dropWhile (· == stop) = [] := by
    simp
  rw [dropTrailing, List.reverse_append, List.reverse_replicate, List.dropWhile_append, dropped]
  simp [kept]

end Text

namespace Location

variable {base root written path other : String}

/-- (IsRoot base root) says that root is base without the slashes at its end. -/
structure IsRoot (base root : String) : Prop where
  slashes : ∃ n, base.toList = root.toList ++ List.replicate n '/'
  noSlash : root.toList.getLast? ≠ some '/'

theorem exists_isRoot (base : String)
    : ∃ root, IsRoot base root := by
  obtain ⟨slashes, noSlash⟩ := Text.exists_dropTrailing '/' base.toList
  refine ⟨String.ofList (Text.dropTrailing '/' base.toList), ?_, ?_⟩
  · rwa [String.toList_ofList]
  · rwa [String.toList_ofList]

theorem IsRoot.dropTrailing_eq (h : IsRoot base root)
    : Text.dropTrailing '/' base.toList = root.toList := by
  obtain ⟨n, slashes⟩ := h.slashes
  rw [slashes, Text.dropTrailing_append_replicate h.noSlash]

-----------------------------------------------------------------------------------------
-- Paths below a root
-----------------------------------------------------------------------------------------

/-- (IsRelative written) holds of the written paths that depend on the root of a table: they have no
scheme and do not begin with a slash.
-/
structure IsRelative (written : String) : Prop where
  noScheme : ¬"://".toList <:+: written.toList
  noSlash : ¬"/".toList <+: written.toList
  noFile : ¬"file:".toList <+: written.toList

theorem isRelative_iff
    : IsRelative written ↔ isAbsolute written.toList = false := by
  have absolute : isAbsolute written.toList = true
      ↔ ("://".toList <:+: written.toList ∨ "/".toList <+: written.toList)
        ∨ "file:".toList <+: written.toList := by
    rw [isAbsolute, Bool.or_eq_true, Bool.or_eq_true, Text.occursIn_iff, List.isPrefixOf_iff_prefix,
      List.isPrefixOf_iff_prefix]
    rfl
  rw [← Bool.not_eq_true, absolute, not_or, not_or]
  exact ⟨fun h => ⟨⟨h.noScheme, h.noSlash⟩, h.noFile⟩, fun h => ⟨h.1.1, h.1.2, h.2⟩⟩

instance (written : String) : Decidable (IsRelative written) :=
  decidable_of_iff _ isRelative_iff.symm

/-- (Writes written path) says that a log can write a path below the root of its table in this way:
percent-encoded, and not like an absolute path.
-/
structure Writes (written path : String) : Prop where
  encodes : Text.Encodes written.toList path.toList
  relative : IsRelative written

/-- However a path is written, it is decoded once and follows the root. -/
theorem full_of_writes (isRoot : IsRoot base root) (h : Writes written path)
    : full base written = root ++ "/" ++ path := by
  refine String.toList_inj.mp ?_
  rw [full, fullChars, isRelative_iff.mp h.relative, isRoot.dropTrailing_eq,
    Text.percentDecode_of_encodes h.encodes]
  simp

end Location

-----------------------------------------------------------------------------------------
-- Actions on a file
-----------------------------------------------------------------------------------------

namespace Log

open Store (Tree Path)

variable {base root path other : String} {reference otherReference : Option String}
  {x y action : Action} {actions : List Action} {acts : Nat → List Action} {u v w : Nat}

/-- (Concerns action path reference) says that an action is on the file at a path below the root of
its table with the deletion vector of a reference, however the path is written.
-/
structure Concerns (action : Action) (path : String) (reference : Option String) : Prop where
  writes : Location.Writes action.path path
  reference : action.deletionVector.map (·.reference) = reference

/-- (AddsFile path reference actions) says that some action adds a file, however it is written. -/
def AddsFile (path : String) (reference : Option String) (actions : List Action) : Prop :=
  ∃ action ∈ actions, action.added?.isSome ∧ Concerns action path reference

/-- (RemovesFile path reference actions) says that some action removes a file, however it is
written.
-/
def RemovesFile (path : String) (reference : Option String) (actions : List Action) : Prop :=
  ∃ action ∈ actions, action.removed?.isSome ∧ Concerns action path reference

/-- (AllWritten actions) says that the paths of actions are all written as paths below a root. -/
def AllWritten (actions : List Action) : Prop :=
  ∀ action ∈ actions, ∃ path, Location.Writes action.path path

/-- The key of a file does not depend on how the file is written. -/
theorem Concerns.key_eq (isRoot : Location.IsRoot base root) (h : Concerns action path reference)
    : FileKey.of base action
      = { path := root ++ "/" ++ path, vectorReference := reference } := by
  rw [FileKey.of, Location.full_of_writes isRoot h.writes, h.reference]

/-- A file is told by its key among the files that are written as paths below the root. -/
theorem key_eq_iff_concerns (isRoot : Location.IsRoot base root)
    (written : ∃ path, Location.Writes action.path path)
    : FileKey.of base action = { path := root ++ "/" ++ path, vectorReference := reference }
      ↔ Concerns action path reference := by
  obtain ⟨itsPath, writes⟩ := written
  constructor
  · intro same
    have own : Concerns action itsPath (action.deletionVector.map (·.reference)) := ⟨writes, rfl⟩
    rw [own.key_eq isRoot] at same
    obtain ⟨paths, references⟩ := FileKey.mk.inj same
    obtain rfl := (String.append_right_inj _).mp paths
    exact ⟨writes, references⟩
  · exact fun concerns => concerns.key_eq isRoot

theorem adds_iff_addsFile (isRoot : Location.IsRoot base root) (written : AllWritten actions)
    : Adds base { path := root ++ "/" ++ path, vectorReference := reference } actions
      ↔ AddsFile path reference actions := by
  refine exists_congr fun action => and_congr_right fun member => and_congr_right fun _ => ?_
  exact key_eq_iff_concerns isRoot (written action member)

theorem removes_iff_removesFile (isRoot : Location.IsRoot base root) (written : AllWritten actions)
    : Removes base { path := root ++ "/" ++ path, vectorReference := reference } actions
      ↔ RemovesFile path reference actions := by
  refine exists_congr fun action => and_congr_right fun member => and_congr_right fun _ => ?_
  exact key_eq_iff_concerns isRoot (written action member)

-----------------------------------------------------------------------------------------
-- Live files by their paths
-----------------------------------------------------------------------------------------

/-- A file that is removed is not live unless it is added again. -/
theorem not_liveAt_of_removes {key : FileKey} (removes : Removes base key (acts w)) (past : w ≤ v)
    (notAgain : ∀ u, w ≤ u → u ≤ v → ¬Adds base key (acts u))
    : ¬LiveAt base acts v key := by
  rintro ⟨u, upTo, adds, stays⟩
  by_cases before : u < w
  · exact stays w before past removes
  · exact notAgain u (Nat.not_lt.mp before) upTo adds

/-- (ListsByPath base acts v files) says that a listing at a version goes by the paths that the log
writes, and not by how it writes them.
-/
structure ListsByPath (base : String) (acts : Nat → List Action) (v : Nat) (files : List AddFile)
    : Prop where
  /-- A file that a version removes is dropped, unless one from there on adds it. -/
  dropped
    : ∀ path reference, ∀ w ≤ v, ∀ removal ∈ acts w,
        removal.removed?.isSome
        → Concerns removal path reference
        → (∀ u, w ≤ u → u ≤ v → ¬Adds base (FileKey.of base removal) (acts u))
        → ¬∃ file ∈ files, Concerns (.add file) path reference
  /-- Where all paths are written as paths below the root, a file is listed if some version adds it
  and no later one removes it.
  -/
  listed
    : (∀ u ≤ v, AllWritten (acts u))
      → ∀ path reference,
          (∃ file ∈ files, Concerns (.add file) path reference)
          ↔ ∃ u ≤ v,
              AddsFile path reference (acts u)
              ∧ ∀ w, u < w → w ≤ v → ¬RemovesFile path reference (acts w)

/-- The listing of the live files goes by their paths. -/
theorem ListsLive.byPath {files : List AddFile} (live : ListsLive base acts v files)
    : ListsByPath base acts v files := by
  obtain ⟨root, isRoot⟩ := Location.exists_isRoot base
  constructor
  case dropped =>
    intro path reference w past removal member isRemoval concerns notAgain
    rintro ⟨file, isListed, concernsToo⟩
    have same : FileKey.of base (.add file) = FileKey.of base removal :=
      (concernsToo.key_eq isRoot).trans (concerns.key_eq isRoot).symm
    have isLive : LiveAt base acts v (FileKey.of base removal) :=
      (live.live _).mp (same ▸ List.mem_map_of_mem isListed)
    exact not_liveAt_of_removes ⟨removal, member, isRemoval, rfl⟩ past notAgain isLive
  case listed =>
    intro written path reference
    have isListed : (∃ file ∈ files, Concerns (.add file) path reference)
        ↔ LiveAt base acts v { path := root ++ "/" ++ path, vectorReference := reference } := by
      rw [← live.live, List.mem_map]
      refine exists_congr fun file => and_congr_right fun member => ?_
      obtain ⟨u, upTo, added⟩ := live.exists_added member
      exact (key_eq_iff_concerns isRoot (written u upTo _ added)).symm
    rw [isListed]
    refine exists_congr fun u => and_congr_right fun upTo => ?_
    rw [adds_iff_addsFile isRoot (written u upTo)]
    refine and_congr_right fun _ => forall_congr' fun w => forall_congr' fun _ => ?_
    refine forall_congr' fun past => not_congr ?_
    exact removes_iff_removesFile isRoot (written w past)

-----------------------------------------------------------------------------------------
-- Written paths
-----------------------------------------------------------------------------------------

/-- (DecodesOnce base root) says that the written paths of a table lead to their own places below
its root, and to no others.
-/
structure DecodesOnce (base root : String) : Prop where
  full
    : ∀ written path,
        Location.Writes written path → Location.full base written = root ++ "/" ++ path
  sameFull
    : ∀ written path written' path',
        Location.Writes written path
        → Location.Writes written' path'
        → (Location.full base written = Location.full base written' ↔ path = path')
  sameKey
    : ∀ x path reference y path' reference',
        Concerns x path reference
        → Concerns y path' reference'
        → (FileKey.of base x = FileKey.of base y ↔ path = path' ∧ reference = reference')

theorem decodesOnce_of_isRoot (isRoot : Location.IsRoot base root)
    : DecodesOnce base root where
  full _ _ writes := Location.full_of_writes isRoot writes
  sameFull _ _ _ _ writes writesToo := by
    rw [Location.full_of_writes isRoot writes, Location.full_of_writes isRoot writesToo,
      String.append_right_inj]
  sameKey _ _ _ _ _ _ concerns concernsToo := by
    rw [concerns.key_eq isRoot, concernsToo.key_eq isRoot, FileKey.mk.injEq,
      String.append_right_inj]

/-- A path that a log writes in percent encoding is decoded once: the full path is the root of the
table, which is its base without slashes at the end, a slash and the path. So the full path and the
key of a file tell what path is written and nothing of how, and in every listing of every log the
removal of a file drops it, however it and the addition are written.
-/
theorem paths_decoded_once
    : (∀ base, ∃ root, Location.IsRoot base root)
      ∧ (∀ base root, Location.IsRoot base root → DecodesOnce base root)
      ∧ ∀ settings (location : Path) tree log (acts : Nat → List Action) (n v : Nat)
          (table : Table),
          Follows settings location tree log
          → Contiguous tree (.ofBase settings location) n
          → (∀ u ≤ v, actionsAt tree (.ofBase settings location) u = .ok (acts u))
          → v ≤ n
          → ∃ adds,
              ((CommitLog.files tree v table).run log).result
                = .ok (adds.map (DataFile.ofAdd table.fileContext))
              ∧ ListsByPath location.text acts v adds := by
  refine ⟨Location.exists_isRoot, fun _ _ => decodesOnce_of_isRoot, ?_⟩
  intro settings location tree log acts n v table follows contiguous valid past
  obtain ⟨gone, below, history, agrees, _⟩ := follows
  have listed := CommitLog.files_yields_upTo below.apart contiguous valid past table agrees
  exact ⟨_, listed.result_eq, (listsLive_inOrder location.text acts v).byPath⟩

/-- A log that adds two files, whose paths differ in an encoded percent sign, and removes one of
them, which it writes in another way.
-/
def sampleEncoded : Tree :=
  storeOf (filesOf
    [(0, commitFile
        ("\n".intercalate
          [r#"{"add":{"path":"r%C3%a9/%2541"}}"#, r#"{"add":{"path":"r%c3%A9/A"}}"#])
        1000),
      (1, commitFile r#"{"remove":{"path":"ré/%25%341"}}"# 2000)])

def sampleEncodedActions : Nat → List Action
  | 0 => [.add { path := "r%C3%a9/%2541" }, .add { path := "r%c3%A9/A" }]
  | 1 => [.remove { path := "ré/%25%341" }]
  | _ => []

theorem actionsAt_sampleEncoded
    : ∀ u ≤ 1, actionsAt sampleEncoded topPlace (u : Nat) = .ok (sampleEncodedActions u) := by
  decide +kernel

/-- The first path of the log is written in two ways; the second is not what it would be decoded to
if it were decoded again.
-/
theorem writes_sampleEncoded
    : Location.Writes "r%C3%a9/%2541" "ré/%41"
      ∧ Location.Writes "ré/%25%341" "ré/%41"
      ∧ Location.Writes "r%c3%A9/A" "ré/A" := by
  have accent : String.utf8EncodeChar 'é' = [0xc3, 0xa9] := by decide
  have percent : String.utf8EncodeChar '%' = [0x25] := by decide
  have four : String.utf8EncodeChar '4' = [0x34] := by decide
  have first : Text.EncodesBytes ['%', 'C', '3', '%', 'a', '9'] (String.utf8EncodeChar 'é') :=
    accent ▸ .cons (by decide) (by decide) (.cons (by decide) (by decide) .nil)
  have second : Text.EncodesBytes ['%', 'c', '3', '%', 'A', '9'] (String.utf8EncodeChar 'é') :=
    accent ▸ .cons (by decide) (by decide) (.cons (by decide) (by decide) .nil)
  have sign : Text.EncodesBytes ['%', '2', '5'] (String.utf8EncodeChar '%') :=
    percent ▸ .cons (by decide) (by decide) .nil
  have digit : Text.EncodesBytes ['%', '3', '4'] (String.utf8EncodeChar '4') :=
    four ▸ .cons (by decide) (by decide) .nil
  refine ⟨⟨?_, by decide⟩, ⟨?_, by decide⟩, ⟨?_, by decide⟩⟩
  · exact .plain (by decide) (.escaped first (.plain (by decide) (.escaped sign
      (Text.encodes_self (by decide)))))
  · exact .plain (by decide) (.plain (by decide) (.plain (by decide) (.escaped sign
      (.escaped digit (Text.encodes_self (by decide))))))
  · exact .plain (by decide) (.escaped second (Text.encodes_self (by decide)))

/-- The file that is removed is dropped, the other one is listed. -/
theorem paths_decoded_once_sampleEncoded
    : Location.full "t//" "r%C3%a9/%2541" = "t/ré/%41"
      ∧ Location.full "t//" "ré/%25%341" = "t/ré/%41"
      ∧ ∀ table : Table, ∃ adds : List AddFile,
          ((CommitLog.files sampleEncoded 1 table).run (.ofBase {} topPlace.base)).result
            = .ok (adds.map (DataFile.ofAdd table.fileContext))
          ∧ (¬∃ file ∈ adds, Concerns (.add file) "ré/%41" none)
          ∧ ∃ file ∈ adds, Concerns (.add file) "ré/A" none := by
  obtain ⟨-, decodes, lists⟩ := paths_decoded_once
  obtain ⟨added, removed, other⟩ := writes_sampleEncoded
  have once : DecodesOnce "t//" "t" := decodes _ _ ⟨⟨2, by decide⟩, by decide⟩
  refine ⟨once.full _ _ added, once.full _ _ removed, fun table => ?_⟩
  obtain ⟨adds, files, byPath⟩ := lists {} topPlace.base sampleEncoded _ sampleEncodedActions 1 1
    table (follows_ofBase _ _ _) (by unfold Contiguous; decide +kernel) actionsAt_sampleEncoded
    (Nat.le_refl 1)
  have written : ∀ u ≤ 1, AllWritten (sampleEncodedActions u) := by
    intro u upTo action member
    obtain rfl | rfl : u = 0 ∨ u = 1 := by omega
    · simp only [sampleEncodedActions, List.mem_cons, List.not_mem_nil, or_false] at member
      rcases member with rfl | rfl
      · exact ⟨_, added⟩
      · exact ⟨_, other⟩
    · obtain rfl := List.mem_singleton.mp member
      exact ⟨_, removed⟩
  refine ⟨adds, files, ?_, (byPath.listed written "ré/A" none).mpr ?_⟩
  · refine byPath.dropped "ré/%41" none 1 (Nat.le_refl 1) (.remove { path := "ré/%25%341" })
      List.mem_cons_self rfl ⟨removed, rfl⟩ fun u least upTo => ?_
    obtain rfl : u = 1 := by omega
    simp [sampleEncodedActions, Action.added?]
  · refine ⟨0, Nat.zero_le 1, ⟨.add { path := "r%c3%A9/A" }, by simp [sampleEncodedActions], rfl,
      ⟨other, rfl⟩⟩, fun w later upTo => ?_⟩
    obtain rfl : w = 1 := by omega
    rintro ⟨action, member, -, concerns⟩
    obtain rfl := List.mem_singleton.mp member
    have same := (once.sameFull _ _ _ _ removed concerns.writes).mp rfl
    exact absurd same (by decide)

end Log

end DeltaFeed
