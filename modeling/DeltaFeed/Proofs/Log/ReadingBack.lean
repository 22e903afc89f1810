import DeltaFeed.Proofs.Feed.SnapshotContents
import DeltaFeed.Proofs.Log.Statements

/-! Reading undoes writing. A log that is opened on a directory into which a writer committed
statements lists the versions that were committed, and tells of each of them exactly what was
stated: the actions in order, the time, and the metadata that were stated last.
-/

namespace DeltaFeed.Log

open Store (Tree Node Path IsName)

-----------------------------------------------------------------------------------------
-- Commits of statements
-----------------------------------------------------------------------------------------

/-- A call that commits some statements at a time. -/
structure CommitCall where
  statements : List Statement
  millis : Int
  operation : String

/-- The statements of a call can be written, and its time lies within some centuries of 1970. -/
structure CommitCall.Valid (call : CommitCall) : Prop where
  statements : ∀ statement ∈ call.statements, statement.Valid
  millis : -9000000000000 ≤ call.millis ∧ call.millis ≤ 9000000000000

instance (call : CommitCall) : Decidable call.Valid :=
  decidable_of_iff
    ((∀ statement ∈ call.statements, statement.Valid)
      ∧ -9000000000000 ≤ call.millis ∧ call.millis ≤ 9000000000000)
    ⟨fun ⟨statements, millis⟩ => ⟨statements, millis⟩,
      fun valid => ⟨valid.statements, valid.millis⟩⟩

namespace LogWriter

/-- (commitCall call) commits the statements of a call as the next version. -/
def commitCall (call : CommitCall) : Op (Tree × LogWriter) Int := do
  let lines ← .ofResult (valuesOf call.statements)
  let written ← commit lines (some call.millis) call.operation none
  return written.version

/-- (commitAll calls) commits one call after the other, and gives their versions. -/
def commitAll : List CommitCall → Op (Tree × LogWriter) (List Int)
  | [] => return []
  | call :: rest => do
    let version ← commitCall call
    return version :: (← commitAll rest)

end LogWriter

/-- (numbers first count) are so many versions from a first one on. -/
def numbers (first count : Nat) : List Int :=
  (List.range' first count).map fun (v : Nat) => (v : Int)

/-- (lastRecorded? calls) are the metadata that some calls state last. -/
def lastRecorded? (calls : List CommitCall) : Option Metadata :=
  ((calls.flatMap (·.statements)).filterMap Statement.recorded?).getLast?

/-- (HasRoom place count) says that the files of so many versions have names that a store takes,
with as many digits as the log looks for.
-/
structure HasRoom (place : Place) (count : Nat) : Prop where
  positive : 0 < place.digits
  names : place.digits + 5 ≤ Store.maxNameBytes
  numbered : count ≤ 10 ^ place.digits
  paths : ∀ v : Nat, v < count → (place.file v).isTooLong = false

/-- Where there is room for some commits, there is room for fewer. -/
theorem HasRoom.mono {place : Place} {count more : Nat} (room : HasRoom place more)
    (fewer : count ≤ more)
    : HasRoom place count :=
  ⟨room.positive, room.names, Nat.le_trans fewer room.numbered, fun v below =>
    room.paths v (Nat.lt_of_lt_of_le below fewer)⟩

-----------------------------------------------------------------------------------------
-- The line about the commit
-----------------------------------------------------------------------------------------

section CommitLine

variable {millis : Int} {operation provider : String}

/-- The commit information can be written if its time can. -/
theorem isLine_commitLine (range : InRange millis)
    : IsLine (commitLine millis operation) := by
  refine isLine_of_fields "commitInfo" (by decide : ["timestamp", "operation"].Nodup) ?_ ?_
  · simpa [Document.Kept, InRange] using range
  · simp [Document.depth]

/-- The line about the commit is sound; it states no time of the commit, no action and no metadata.
-/
theorem soundLine_commitLine
    : SoundLine provider (commitLine millis operation) where
  isRecord := ⟨_, rfl⟩
  commitInfo := by
    rintro info ⟨⟩
    exact .inr ⟨_, rfl⟩
  metaData := nofun

theorem actionOf_commitLine
    : Payload.actionOf (commitLine millis operation) = .ok none := rfl

theorem statedTime?_commitLine
    : statedTime? (commitLine millis operation) = none := rfl

theorem recordedMetadata?_commitLine
    : recordedMetadata? provider (commitLine millis operation) = none := rfl

variable {statements : List Statement} {lines : List Value}

/-- All lines of a commit are sound: the commit information, and those that say a statement. -/
theorem soundLine_of_tells (told : List.Forall₂ (Tells provider) statements lines)
    : ∀ line ∈ commitLine millis operation :: lines, SoundLine provider line :=
  List.forall_mem_cons.mpr ⟨soundLine_commitLine, forall_mem_of_tells told (·.sound)⟩

/-- The lines of a commit state no time for it. -/
theorem statedMillis_of_tells (told : List.Forall₂ (Tells provider) statements lines)
    : Payload.statedMillis (commitLine millis operation :: lines) = .ok none := by
  have untimed : lines.findSome? statedTime? = none :=
    List.findSome?_eq_none_iff.mpr (forall_mem_of_tells told (·.untimed))
  rw [statedMillis_of_sound (soundLine_of_tells told), List.findSome?_cons, statedTime?_commitLine,
    untimed]

end CommitLine

-----------------------------------------------------------------------------------------
-- One commit
-----------------------------------------------------------------------------------------

/-- (IsFileOf provider call node) holds of the file of a commit: it has the time of the call, and a
line about the commit followed by one for each statement.
-/
def IsFileOf (provider : String) (call : CommitCall) (node : Node) : Prop :=
  ∃ content lines,
    node = .file content (1000000 * call.millis)
    ∧ payloadsOf content = some (commitLine call.millis call.operation :: lines)
    ∧ List.Forall₂ (Tells provider) call.statements lines

/-- (Lists place provider before done entries) says that a directory has the files of some commits
after the names that were there before.
-/
structure Lists (place : Place) (provider : String) (before : List String)
    (done : List CommitCall) (entries : List (String × Node))
    : Prop where
  names
    : keys entries
      = before ++ (List.range done.length).map fun (v : Nat) => fileName place.digits v
  files
    : ∀ {i : Nat} {call}, done[i]? = some call
      → ∃ node,
          entries.lookup (fileName place.digits i) = some node ∧ IsFileOf provider call node

/-- (Wrote place provider before done both) says that a writer has committed some calls. -/
structure Wrote (place : Place) (provider : String) (before : List String)
    (done : List CommitCall) (both : Tree × LogWriter)
    : Prop where
  writer : both.2 = { place, next := done.length }
  noNull : Store.hasNull place.directory.text = false
  plain : ∀ name ∈ before, stem? place.digits name = none
  directory
    : ∃ entries,
        both.1.find place.directory = .ok (.directory entries)
        ∧ Lists place provider before done entries

variable {place : Place} {provider : String} {before : List String} {done calls : List CommitCall}
  {call : CommitCall} {entries : List (String × Node)} {both : Tree × LogWriter}

/-- The name of the next file is not listed yet. -/
theorem Lists.not_mem (lists : Lists place provider before done entries)
    (plain : ∀ name ∈ before, stem? place.digits name = none)
    (room : HasRoom place (done.length + 1))
    : fileName place.digits done.length ∉ keys entries := by
  rw [lists.names, List.mem_append, not_or]
  constructor
  · intro member
    have stem := stem?_fileName room.positive (Nat.lt_of_succ_le room.numbered)
    rw [plain _ member] at stem
    cases stem
  · intro member
    obtain ⟨v, earlier, same⟩ := List.mem_map.mp member
    have := List.mem_range.mp earlier
    have := fileName_inj same
    omega

/-- A directory to which the next file is added lists it as well. -/
theorem Lists.append (lists : Lists place provider before done entries) {node : Node}
    (new : fileName place.digits done.length ∉ keys entries) (isFile : IsFileOf provider call node)
    : Lists place provider before (done ++ [call])
        (entries ++ [(fileName place.digits done.length, node)]) where
  names := by
    rw [List.length_append, List.length_singleton, List.range_succ, List.map_append,
      ← List.append_assoc, ← lists.names]
    simp [keys]
  files := by
    intro i other found
    have unlisted : entries.lookup (fileName place.digits done.length) = none :=
      lookup_eq_none_of_not_mem_keys new
    rw [List.lookup_append]
    by_cases last : i = done.length
    · subst last
      rw [List.getElem?_concat_length] at found
      cases found
      exact ⟨node, by rw [unlisted, List.lookup_cons_self, Option.none_or], isFile⟩
    · have earlier : i < done.length := by
        have := (List.getElem?_eq_some_iff.mp found).1
        rw [List.length_append, List.length_singleton] at this
        omega
      rw [List.getElem?_append_left earlier] at found
      obtain ⟨older, listed, isOlder⟩ := lists.files found
      exact ⟨older, by rw [listed, Option.some_or], isOlder⟩

/-- The content of a commit is read as the line about the commit and the lines of its statements.
-/
theorem exists_content (valid : call.Valid) (provider : String)
    : ∃ lines content,
        valuesOf call.statements = .ok lines
        ∧ contentOf (commitLine call.millis call.operation :: lines) = .ok content
        ∧ IsFileOf provider call (.file content.toUTF8 (1000000 * call.millis)) := by
  obtain ⟨lines, values, told⟩ := exists_valuesOf valid.statements provider
  have range : InRange call.millis := by
    obtain ⟨least, greatest⟩ := valid.millis
    simp only [InRange, Document.leastInt, Document.greatestInt]
    omega
  have isLine : ∀ line ∈ commitLine call.millis call.operation :: lines, IsLine line :=
    List.forall_mem_cons.mpr ⟨isLine_commitLine range, forall_mem_of_tells told (·.isLine)⟩
  obtain ⟨content, written, read⟩ := exists_contentOf isLine
  exact ⟨lines, content, values, written, content.toUTF8, lines, rfl, read, told⟩

namespace LogWriter

/-- A commit adds the next file to the directory of the log. -/
theorem commitCall_yields (wrote : Wrote place provider before done both)
    (room : HasRoom place (done.length + 1)) (valid : call.Valid)
    : (commitCall call).Yields both (.ok done.length)
        (Wrote place provider before (done ++ [call])) := by
  obtain ⟨tree, writer⟩ := both
  obtain ⟨entries, found, lists⟩ := wrote.directory
  obtain rfl := wrote.writer
  obtain ⟨lines, content, values, written, isFile⟩ := exists_content valid provider
  have new := lists.not_mem wrote.plain room
  have isName := isName_fileName room.positive (Nat.lt_of_succ_le room.numbered) room.names
  have path : place.file done.length
      = place.directory.entry (fileName place.digits done.length) := file_eq place done.length
  have short := room.paths done.length (Nat.lt_succ_self _)
  rw [path] at short
  have added := Tree.write_yields found wrote.noNull isName short new content.toUTF8
    (1000000 * call.millis)
  rw [← path] at added
  unfold commitCall
  rw [values]
  apply Op.Yields.bind_ofResult
  refine .bind (a := ⟨done.length, content, 1000000 * call.millis⟩)
    (Q := Wrote place provider before (done ++ [call])) ?_ fun _ wrote => .pure _ wrote
  apply Op.Yields.bind_current
  simp only [Option.getD_none, Option.map_some, Option.toList_some, List.singleton_append,
    Option.getD_some, written]
  apply Op.Yields.bind_ofResult
  apply Op.Yields.bind (Op.Yields.bind_current (added.onFirst _))
  rintro ⟨tree, writer⟩ ⟨found, rfl⟩
  refine .bind (Q := Wrote place provider before (done ++ [call]))
    (.within (P := (· = { place, next := (done.length : Int) + 1 })) (.change _ rfl) ?_)
    fun _ wrote => .pure _ wrote
  rintro _ rfl
  refine ⟨?_, wrote.noNull, wrote.plain, _, found, lists.append new isFile⟩
  simp

/-- Calls are committed under the next versions, one after the other. -/
theorem commitAll_yields (wrote : Wrote place provider before done both)
    (room : HasRoom place (done.length + calls.length)) (valid : ∀ call ∈ calls, call.Valid)
    : (commitAll calls).Yields both (.ok (numbers done.length calls.length))
        (Wrote place provider before (done ++ calls)) := by
  induction calls generalizing done both with
  | nil => exact .pure _ (by rwa [List.append_nil])
  | cons call rest ih =>
      have here : HasRoom place (done.length + 1) := room.mono (by simp)
      have next : HasRoom place ((done ++ [call]).length + rest.length) :=
        room.mono (by simp; omega)
      have committed := commitCall_yields wrote here (valid call List.mem_cons_self)
      refine .bind committed fun both wrote => ?_
      have later := ih wrote next fun c member => valid c (List.mem_cons_of_mem call member)
      rw [List.append_assoc, List.singleton_append] at later
      refine .bind later fun both wrote => ?_
      have versions : numbers done.length (call :: rest).length
          = (done.length : Int) :: numbers (done ++ [call]).length rest.length := by
        simp [numbers, List.range'_succ]
      rw [versions]
      exact .pure _ wrote

/-- A writer that was started has committed nothing yet. -/
theorem wrote_of_start {settings : Settings} {base : Path} {tree : Tree} {writer : LogWriter}
    (rooted : tree.IsDirectory [])
    (started : ((start settings base).run tree).result = .ok writer)
    (plain
      : ∀ name
          ∈ ((start settings base).run tree).state.names (Place.ofBase settings base).directory,
          stem? (Place.ofBase settings base).digits name = none)
    : Wrote (.ofBase settings base) provider
        (((start settings base).run tree).state.names (Place.ofBase settings base).directory) []
        (((start settings base).run tree).state, writer) := by
  cases made : ((Tree.makeDirectory (Place.ofBase settings base).directory).run tree).result with
  | error failure =>
      rw [start, Op.run_bind_error made] at started
      cases started
  | ok nothing =>
      have state : ((start settings base).run tree).state
          = ((Tree.makeDirectory (Place.ofBase settings base).directory).run tree).state := by
        rw [start, Op.run_bind_ok made]
        rfl
      rw [start, Op.run_bind_ok made] at started
      obtain rfl := Except.ok.inj started
      obtain ⟨noNull, entries, found⟩ := Tree.find_of_makeDirectory rooted made
      rw [← state] at found
      refine ⟨rfl, noNull, plain, entries, found, ?_, nofun⟩
      rw [Tree.names, found]
      exact (List.append_nil _).symm

end LogWriter

-----------------------------------------------------------------------------------------
-- What the files tell
-----------------------------------------------------------------------------------------

namespace Wrote

variable {tree : Tree} {writer : LogWriter} {i n : Nat}

/-- The file of a commit is found under its version. -/
theorem exists_isFileOf (wrote : Wrote place provider before calls (tree, writer))
    (room : HasRoom place calls.length) (found : calls[i]? = some call)
    : ∃ node, tree.find (place.file i) = .ok node ∧ IsFileOf provider call node := by
  obtain ⟨entries, directory, lists⟩ := wrote.directory
  obtain ⟨node, listed, isFile⟩ := lists.files found
  have below := (List.getElem?_eq_some_iff.mp found).1
  have isName := isName_fileName room.positive (Nat.lt_of_lt_of_le below room.numbered) room.names
  have path : place.file i = place.directory.entry (fileName place.digits i) := file_eq place i
  have short := room.paths i below
  obtain ⟨content, lines, rfl, read, told⟩ := isFile
  rw [path] at short ⊢
  exact ⟨_, Tree.find_file directory isName short listed, content, lines, rfl, read, told⟩

/-- The file of a commit is loaded as the lines that were written into it. -/
theorem exists_load (wrote : Wrote place provider before calls (tree, writer))
    (room : HasRoom place calls.length) (found : calls[i]? = some call)
    : ∃ lines,
        load tree place i = .ok (commitLine call.millis call.operation :: lines)
        ∧ modifiedMillis tree place i = .ok call.millis
        ∧ List.Forall₂ (Tells provider) call.statements lines := by
  obtain ⟨_, isThere, content, lines, rfl, read, told⟩ := wrote.exists_isFileOf room found
  refine ⟨lines, load_of_payloadsOf isThere read, ?_, told⟩
  · have modified : tree.modified (place.file i) = .ok (1000000 * call.millis) := by
      unfold Tree.modified
      rw [isThere]
      rfl
    unfold modifiedMillis
    dsimp only
    rw [modified]
    dsimp only
    rw [Int.fdiv_eq_ediv_of_nonneg _ (by decide), Int.mul_ediv_cancel_left _ (by decide)]

/-- The actions of a version that was written are those of the statements of its call. -/
theorem actionsAt_eq (wrote : Wrote place provider before calls (tree, writer))
    (room : HasRoom place calls.length) (found : calls[i]? = some call)
    : actionsAt tree place i = .ok (call.statements.filterMap Statement.action?) := by
  obtain ⟨lines, loaded, _, told⟩ := wrote.exists_load room found
  have actions := actionsOf_of_tells told
  rw [actionsAt, loaded]
  simp only [bind, Except.bind]
  rw [Payload.actionsOf, actionOf_commitLine, actions]
  rfl

/-- The time of a version that was written is the one that its file was given. -/
theorem timeAt_eq (wrote : Wrote place provider before calls (tree, writer))
    (room : HasRoom place calls.length) (found : calls[i]? = some call)
    : timeAt tree place i = .ok call.millis := by
  obtain ⟨lines, loaded, modified, told⟩ := wrote.exists_load room found
  rw [timeAt, loaded]
  simp only [bind, Except.bind, statedMillis_of_tells told]
  exact modified

/-- What the file of a commit records are the metadata that were stated, at the time of the call.
-/
theorem recorded_eq (wrote : Wrote place provider before calls (tree, writer))
    (room : HasRoom place calls.length) (found : calls[i]? = some call)
    : recorded tree place provider i
      = { version := i
          raw := call.millis
          metadata := call.statements.filterMap Statement.recorded? } := by
  obtain ⟨lines, loaded, _, told⟩ := wrote.exists_load room found
  have raw : (recorded tree place provider i).raw = call.millis :=
    raw_of_timeAt (wrote.timeAt_eq room found)
  have metadata : (recorded tree place provider i).metadata
      = call.statements.filterMap Statement.recorded? := by
    rw [recorded, loaded]
    simp only [Except.toOption, Option.getD_some]
    rw [List.filterMap_cons_none recordedMetadata?_commitLine, recorded_of_tells told]
  have version : (recorded tree place provider i).version = i := rfl
  generalize recorded tree place provider i = commit at raw metadata version ⊢
  obtain ⟨_, _, _⟩ := commit
  dsimp only at raw metadata version
  rw [raw, metadata, version]

/-- The file of a version that was written is sound. -/
theorem soundFile (wrote : Wrote place provider before calls (tree, writer))
    (room : HasRoom place calls.length) (found : calls[i]? = some call)
    : SoundFile tree place provider i := by
  obtain ⟨lines, loaded, _, told⟩ := wrote.exists_load room found
  exact ⟨_, loaded, soundLine_of_tells told⟩

/-- The names in the directory write the versions that were committed. -/
theorem stems_eq (wrote : Wrote place provider before calls (tree, writer))
    (room : HasRoom place calls.length)
    : (tree.names place.directory).filterMap (stem? place.digits)
      = (List.range calls.length).map (Text.padded place.digits) := by
  obtain ⟨entries, directory, lists⟩ := wrote.directory
  have names : tree.names place.directory = keys entries := by
    rw [Tree.names, directory]
    rfl
  have noVersions : before.filterMap (stem? place.digits) = [] :=
    List.filterMap_eq_nil_iff.mpr wrote.plain
  rw [names, lists.names, List.filterMap_append, noVersions, List.nil_append, List.filterMap_map,
    ← List.filterMap_eq_map]
  refine List.filterMap_congr fun v member => ?_
  have below := Nat.lt_of_lt_of_le (List.mem_range.mp member) room.numbered
  rw [Function.comp_apply, stem?_fileName room.positive below, Function.comp_apply]

/-- The directory lists the versions that were committed. -/
theorem contiguous (wrote : Wrote place provider before calls (tree, writer))
    (room : HasRoom place calls.length) (last : calls.length = n + 1)
    : Contiguous tree place n := by
  obtain ⟨_, directory, _⟩ := wrote.directory
  have stems := wrote.stems_eq room
  rw [last] at stems
  have numbered : n < 10 ^ place.digits := by
    have := room.numbered
    omega
  have fits : place.digits ≤ Integer.maxDigits := by
    have := room.names
    simp only [Store.maxNameBytes, Integer.maxDigits] at *
    omega
  unfold Contiguous listVersions
  dsimp only
  rw [directory]
  exact versionsOf_eq_upTo room.positive fits numbered stems

end Wrote

-----------------------------------------------------------------------------------------
-- The history of the commits
-----------------------------------------------------------------------------------------

/-- Adjusted times are at most one millisecond apart where they were adjusted. -/
theorem ascending_bounds {last : Option Int} {raws : List Int} {lower upper : Int}
    (earlier : ∀ millis ∈ last, millis < upper)
    (range : ∀ raw ∈ raws, lower ≤ raw ∧ raw ≤ upper)
    : ∀ millis ∈ ascending last raws, lower ≤ millis ∧ millis < upper + raws.length := by
  induction raws generalizing last upper with
  | nil => simp [ascending]
  | cons raw rest ih =>
      obtain ⟨least, greatest⟩ := range raw List.mem_cons_self
      have next : lower ≤ after last raw ∧ after last raw ≤ upper := by
        cases last with
        | none => exact ⟨least, greatest⟩
        | some before =>
            have := earlier before rfl
            simp only [after]
            split <;> omega
      have later : ∀ millis ∈ ascending (some (after last raw)) rest,
          lower ≤ millis ∧ millis < upper + 1 + rest.length := by
        refine ih ?_ fun raw member => ?_
        · rintro _ ⟨⟩
          omega
        · have := range raw (List.mem_cons_of_mem _ member)
          omega
      intro millis member
      rw [List.length_cons]
      rcases List.mem_cons.mp member with rfl | member
      · omega
      · have := later millis member
        omega

/-- So many commits can follow each other a millisecond apart before the years of a time are over.
-/
def maxCommits : Nat := 244402300800000

namespace Wrote

variable {tree : Tree} {writer : LogWriter} {i n : Nat}

/-- Each version up to the last was written by a call. -/
theorem exists_call (last : calls.length = n + 1) (past : i ≤ n)
    : ∃ call, calls[i]? = some call ∧ call ∈ calls := by
  have below : i < calls.length := by omega
  exact ⟨calls[i], List.getElem?_eq_getElem below, List.getElem_mem below⟩

/-- The log of some commits is sound. -/
theorem soundLog (wrote : Wrote place provider before calls (tree, writer))
    (room : HasRoom place calls.length) (last : calls.length = n + 1)
    (valid : ∀ call ∈ calls, call.Valid) (few : calls.length ≤ maxCommits)
    : SoundLog tree place provider := by
  have contiguous := wrote.contiguous room last
  refine ⟨fun v member => ?_, fun millis member => ?_⟩
  · obtain ⟨i, past, rfl⟩ := contiguous.mem_committed.mp member
    obtain ⟨call, found, _⟩ := exists_call last past
    exact wrote.soundFile room found
  · have range : ∀ raw ∈ (committed tree place).map fun v => (recorded tree place provider v).raw,
        -9000000000000 ≤ raw ∧ raw ≤ 9000000000000 := by
      intro raw isRaw
      obtain ⟨v, isVersion, rfl⟩ := List.mem_map.mp isRaw
      obtain ⟨i, past, rfl⟩ := contiguous.mem_committed.mp isVersion
      obtain ⟨call, found, isCall⟩ := exists_call last past
      rw [wrote.recorded_eq room found]
      exact (valid call isCall).millis
    have bounds := ascending_bounds (by simp) range millis member
    have count : (committed tree place).length = calls.length := by
      rw [committed_of_listVersions contiguous, last]
      simp [upTo]
    rw [List.length_map, count] at bounds
    simp only [Time.Representable, Time.firstInstant, Time.lastInstant, maxCommits] at *
    omega

/-- The metadata in effect at a version are those that were stated last. -/
theorem metadataInEffect?_eq (wrote : Wrote place provider before calls (tree, writer))
    (room : HasRoom place calls.length) (past : i < calls.length)
    : metadataInEffect? tree place provider i = lastRecorded? (calls.take (i + 1)) := by
  have each (k : Nat) (within : k ≤ calls.length)
      : (List.range k).flatMap (fun u : Nat => (recorded tree place provider u).metadata)
        = ((calls.take k).flatMap (·.statements)).filterMap Statement.recorded? := by
    induction k with
    | zero => rfl
    | succ k ih =>
        have found : calls[k]? = some calls[k] := List.getElem?_eq_getElem within
        rw [List.range_succ, List.flatMap_append, ih (Nat.le_of_succ_le within), List.take_add_one,
          found, List.flatMap_append, List.filterMap_append]
        simp [wrote.recorded_eq room found]
  rw [metadataInEffect?, upTo, List.flatMap_map, each (i + 1) past, lastRecorded?]

end Wrote

-----------------------------------------------------------------------------------------
-- Reading back
-----------------------------------------------------------------------------------------

/-- (ReadsBack tree calls log) says that a log tells of the files in a store exactly what some calls
stated, each under its version.
-/
structure ReadsBack (tree : Tree) (calls : List CommitCall) (log : CommitLog) : Prop where
  versions
    : ((CommitLog.versions tree).run log).result
      = if calls = [] then .error (noCommits log.place) else .ok (numbers 0 calls.length)
  actions
    : ∀ {i : Nat} {call},
        calls[i]? = some call
        → ((CommitLog.actions tree i).run log).result
          = .ok (call.statements.filterMap Statement.action?)
  rawMillis
    : ∀ {i : Nat} {call},
        calls[i]? = some call → ((CommitLog.rawMillis tree i).run log).result = .ok call.millis
  metadata
    : ∀ {i : Nat} {metadata},
        calls.length ≤ maxCommits
        → i < calls.length
        → lastRecorded? (calls.take (i + 1)) = some metadata
        → ((CommitLog.metadataAt tree i).run log).result = .ok metadata

namespace Wrote

variable {settings : Settings} {base : Path} {tree : Tree} {writer : LogWriter} {log : CommitLog}

/-- The listing of a log is that of its directory, which fails without commits. -/
theorem listVersions_eq (wrote : Wrote place provider before calls (tree, writer))
    (room : HasRoom place calls.length)
    : listVersions tree place
      = if calls = [] then .error (noCommits place) else .ok (numbers 0 calls.length) := by
  cases calls with
  | nil =>
      obtain ⟨_, directory, _⟩ := wrote.directory
      unfold listVersions versionsOf
      dsimp only
      rw [directory, wrote.stems_eq room]
      rfl
  | cons call rest =>
      have contiguous := wrote.contiguous room (List.length_cons ..)
      rw [if_neg (List.cons_ne_nil call rest), contiguous, numbers, List.length_cons, upTo,
        List.range_eq_range']

/-- A log of the directory tells the metadata that were stated last. -/
theorem metadataAt_result
    (wrote : Wrote (.ofBase settings base) settings.defaultProvider before calls (tree, writer))
    (room : HasRoom (.ofBase settings base) calls.length) (valid : ∀ call ∈ calls, call.Valid)
    (follows : Follows settings base tree log) (few : calls.length ≤ maxCommits) {i : Nat}
    {metadata : Metadata} (below : i < calls.length)
    (stated : lastRecorded? (calls.take (i + 1)) = some metadata)
    : ((CommitLog.metadataAt tree i).run log).result = .ok metadata := by
  obtain ⟨gone, removed, agrees⟩ := follows
  obtain ⟨n, last⟩ : ∃ n, calls.length = n + 1 := ⟨calls.length - 1, by omega⟩
  have past : i ≤ n := by omega
  have contiguous := wrote.contiguous room last
  have sound := wrote.soundLog room last valid few
  have inEffect := (wrote.metadataInEffect?_eq room below).trans stated
  have answer := (CommitLog.metadataAt_yields (v := i) (removed.not_gone contiguous) sound
    agrees).result_eq
  have told : historyAt tree (.ofBase settings base) settings.defaultProvider
      = .ok (historyOf tree (.ofBase settings base) settings.defaultProvider (upTo n)) :=
    historyAt_of_listVersions _ contiguous
  obtain ⟨commit, isCommit⟩
      : ∃ commit,
          (historyOf tree (.ofBase settings base) settings.defaultProvider (upTo n)).commitAt i
            = .ok commit :=
    (commitAt_historyOf (mem_upTo.mpr ⟨i, past, rfl⟩)).imp fun _ found => found.1
  simp only [told, bind, Except.bind, isCommit, metadataAt_historyOf_upTo past inEffect] at answer
  exact answer

/-- Whatever log of the directory reads the calls back. -/
theorem readsBack
    (wrote : Wrote (.ofBase settings base) settings.defaultProvider before calls (tree, writer))
    (room : HasRoom (.ofBase settings base) calls.length) (valid : ∀ call ∈ calls, call.Valid)
    (follows : Follows settings base tree log)
    : ReadsBack tree calls log := by
  have ⟨gone, removed, agrees⟩ := follows
  have ⟨history, keeps, _⟩ := agrees
  have intact {i : Nat} {call : CommitCall} (found : calls[i]? = some call) : ¬gone i := by
    have below := (List.getElem?_eq_some_iff.mp found).1
    have last : calls.length = calls.length - 1 + 1 := by omega
    exact removed.not_gone (wrote.contiguous room last) i
  constructor
  · have listed : (CommitLog.versions tree).Yields log
        (listVersions tree (.ofBase settings base)) (fun _ => True) := by
      apply Op.Yields.bind_current
      rw [keeps.place_eq]
      exact .ofResult _ trivial
    rw [listed.result_eq, wrote.listVersions_eq room, keeps.place_eq]
  · intro i call found
    have answer := (CommitLog.actions_yields (intact found) keeps).result_eq
    rw [answer, wrote.actionsAt_eq room found]
  · intro i call found
    have answer := (CommitLog.rawMillis_yields (intact found) keeps).result_eq
    rw [answer, wrote.timeAt_eq room found]
  · intro i metadata few below stated
    exact wrote.metadataAt_result room valid follows few below stated

end Wrote

/-- Calls of a writer that was started on a directory without commits are committed under the
versions from 0 on, and whatever log of that directory tells exactly what they stated; the
statistics of an added file tell the number of records that was given, and zero if none was. Only
the listing of a log without commits fails.
-/
theorem reading_undoes_writing {settings : Settings} {base : Path} {tree : Tree}
    {writer : LogWriter} {calls : List CommitCall} (rooted : tree.IsDirectory [])
    (started : ((LogWriter.start settings base).run tree).result = .ok writer)
    (plain
      : ∀ name
          ∈ ((LogWriter.start settings base).run tree).state.names
              (Place.ofBase settings base).directory,
          stem? (Place.ofBase settings base).digits name = none)
    (room : HasRoom (.ofBase settings base) calls.length) (valid : ∀ call ∈ calls, call.Valid)
    : ∃ written after,
        ((LogWriter.commitAll calls).run
            (((LogWriter.start settings base).run tree).state, writer)).result
          = .ok (numbers 0 calls.length)
        ∧ ((LogWriter.commitAll calls).run
            (((LogWriter.start settings base).run tree).state, writer)).state
          = (written, after)
        ∧ (∀ log, Follows settings base written log → ReadsBack written calls log)
        ∧ ∀ call ∈ calls, ∀ statement,
            .add statement ∈ call.statements
            → Statistics.recordCount statement.file.stats 0 = statement.numRecords.getD 0 := by
  have wrote : Wrote (.ofBase settings base) settings.defaultProvider _ [] _ :=
    LogWriter.wrote_of_start rooted started plain
  have room' : HasRoom (.ofBase settings base) (([] : List CommitCall).length + calls.length) := by
    rwa [List.length_nil, Nat.zero_add]
  have committed := LogWriter.commitAll_yields wrote room' valid
  refine ⟨_, _, committed.result_eq, rfl, fun log follows => ?_, ?_⟩
  · exact Wrote.readsBack committed.leaves room valid follows
  · intro call member statement stated
    exact AddStatement.recordCount_file ((valid call member).statements _ stated)

/-- Statements of a table and of a file whose names need escapes. -/
def sampleStatements : List Statement :=
  [.metadata
      { partitionColumns := some ["day"]
        name := some "“daily”"
        provider := "parquet"
        tableId := "t" },
    .add
      { path := "a\n\"b\\.parquet"
        partitionValues := some [("day", none), ("", some "\t")]
        size := 0
        numRecords := some 18446744073709551615
        modificationTime := -9223372036854775808
        vector := some
          { pathOrInline := "x"
            storageType := "u"
            offset := none
            cardinality := 0 } }]

/-- Two commits: a table with a file, and the removal of that file by a clock that is behind. -/
def sampleCalls : List CommitCall :=
  [ { statements := sampleStatements
      millis := 9000000000000
      operation := "WRITE" },
    { statements :=
        [.remove
            { path := "a\n\"b\\.parquet"
              partitionValues := none
              size := none
              deletionTimestamp := 1
              vector := none }]
      millis := -1
      operation := "DELETE" }]

/-- A store in which a writer was started. -/
def sampleStarted : Tree :=
  ((LogWriter.start {} topPlace.base).run {}).state

theorem hasRoom_sampleCalls
    : HasRoom topPlace sampleCalls.length where
  positive := by decide
  names := by decide
  numbered := by
    change 2 ≤ 10 ^ 20
    decide
  paths := by
    decide +kernel

/-- The calls can be committed, and are read back. -/
theorem reading_undoes_writing_sampleCalls
    : ((LogWriter.start {} topPlace.base).run {}).result = .ok { place := topPlace }
      ∧ (∀ call ∈ sampleCalls, call.Valid)
      ∧ ∃ written after,
          ((LogWriter.commitAll sampleCalls).run (sampleStarted, { place := topPlace })).result
            = .ok [0, 1]
          ∧ ((LogWriter.commitAll sampleCalls).run (sampleStarted, { place := topPlace })).state
            = (written, after)
          ∧ ((CommitLog.versions written).run (.ofBase {} topPlace.base)).result = .ok [0, 1]
          ∧ ((CommitLog.actions written 1).run (.ofBase {} topPlace.base)).result
            = .ok [.remove
                { path := "a\n\"b\\.parquet"
                  partitionValues := []
                  size := none
                  deletionTimestamp := some 1
                  deletionVector := none }]
          ∧ ((CommitLog.rawMillis written 1).run (.ofBase {} topPlace.base)).result = .ok (-1)
          ∧ ((CommitLog.metadataAt written 1).run (.ofBase {} topPlace.base)).result
            = .ok
                { tableId := some "t"
                  name := some "“daily”"
                  schemaText := some (documentOf standardSchema)
                  partitionColumns := ["day"]
                  formatProvider := "parquet" } := by
  have started
      : ((LogWriter.start {} topPlace.base).run {}).result = .ok { place := topPlace } := by
    decide +kernel
  have plain
      : ∀ name ∈ sampleStarted.names topPlace.directory, stem? topPlace.digits name = none := by
    decide +kernel
  have valid : ∀ call ∈ sampleCalls, call.Valid := by
    decide +kernel
  obtain ⟨written, after, versions, state, reads, _⟩ :=
    reading_undoes_writing ⟨[], rfl⟩ started plain hasRoom_sampleCalls valid
  have back := reads (.ofBase {} topPlace.base) (follows_ofBase _ _ _)
  have first : sampleCalls[1]? = some _ := rfl
  exact ⟨started, valid, written, after, versions, state, back.versions, back.actions first,
    back.rawMillis first, back.metadata (by decide) (by decide) rfl⟩

/-- Nothing is committed by no calls, but the log of that directory cannot be listed. -/
theorem not_listed_sampleStarted
    : ((LogWriter.start {} topPlace.base).run {}).result = .ok { place := topPlace }
      ∧ ((LogWriter.commitAll []).run (sampleStarted, { place := topPlace })).result = .ok []
      ∧ ((LogWriter.commitAll []).run (sampleStarted, { place := topPlace })).state.1
        = sampleStarted
      ∧ ((CommitLog.versions sampleStarted).run (.ofBase {} topPlace.base)).result
        = .error (noCommits topPlace) := by
  refine ⟨by decide +kernel, rfl, ?_, by decide +kernel⟩
  rw [LogWriter.commitAll, Op.run_pure]

end DeltaFeed.Log
