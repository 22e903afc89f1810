import DeltaFeed.Proofs.Change.PathChanges
import DeltaFeed.Proofs.Feed.Sessions
import Mathlib.Data.Finset.SDiff

/-! The changes of versions lead from each snapshot to every later one: a sync that applies them
to the paths of one snapshot ends with the paths of the other.
-/

namespace DeltaFeed

def Snapshot.paths (snapshot : Snapshot) : List String :=
  snapshot.files.map (·.physicalPath)

/-- (change.applied paths) are paths after a change: the removed ones are dropped, and then the
added ones are taken in.
-/
def TableChange.applied (paths : Finset String) (change : TableChange) : Finset String :=
  (paths \ (keys change.diff.removed).toFinset) ∪ (keys change.diff.added).toFinset

namespace Feed

open Log
open Store (Tree Path)

section Paths

variable {base : String} {acts : Nat → List Action} {n u v : Nat} {adds : List AddFile}

/-- The paths of listed files are the live paths. -/
theorem mem_paths_of_listsLive {context : FileContext} (listed : ListsLive base acts v adds)
    (sameBase : context.basePath = base) {path : String}
    : path ∈ adds.map (fun file => (DataFile.ofAdd context file).physicalPath)
      ↔ LivePath base acts v path := by
  constructor
  · intro member
    obtain ⟨file, isAdd, rfl⟩ := List.mem_map.mp member
    exact ⟨_, (listed.live _).mp (List.mem_map.mpr ⟨file, isAdd, rfl⟩), sameBase ▸ rfl⟩
  · intro livePath
    rcases livePath with ⟨key, live, rfl⟩
    obtain ⟨file, isAdd, rfl⟩ := List.mem_map.mp ((listed.live key).mpr live)
    exact List.mem_map.mpr ⟨file, isAdd, sameBase ▸ rfl⟩

/-- A consistent log lists no path twice. -/
theorem nodup_paths_of_listsLive {context : FileContext} (listed : ListsLive base acts v adds)
    (consistent : Consistent base acts n) (past : v ≤ n) (sameBase : context.basePath = base)
    : (adds.map fun file => (DataFile.ofAdd context file).physicalPath).Nodup := by
  have ofKeys : adds.map (fun file => (DataFile.ofAdd context file).physicalPath)
      = (adds.map fun file => FileKey.of base (.add file)).map (·.path) := by
    rw [List.map_map]
    exact List.map_congr_left fun file _ => sameBase ▸ rfl
  rw [ofKeys]
  refine listed.distinct.map_on fun key member other otherMember same => ?_
  exact consistent.live_unique past ((listed.live key).mp member)
    ((listed.live other).mp otherMember) same

/-- Applying the changes of the versions after one leads from its live paths to those of the last
version.
-/
theorem mem_foldl_applied {identity : Identity} {count : Nat} {changes : List TableChange}
    (consistent : Consistent base acts n) (past : u + count ≤ n)
    (sameBase : identity.basePath = base)
    (areChanges
      : List.Forall₂ (fun (v : Nat) => ChangeOf identity v (acts v))
          (List.range' (u + 1) count) changes)
    {paths : Finset String} (before : ∀ path, path ∈ paths ↔ LivePath base acts u path)
    (path : String)
    : path ∈ changes.foldl TableChange.applied paths ↔ LivePath base acts (u + count) path := by
  induction count generalizing u paths changes with
  | zero =>
      cases areChanges
      exact before path
  | succ count ih =>
      rw [List.range'_succ] at areChanges
      obtain ⟨change, rest, ⟨table, tableBase, rfl⟩, areRest, rfl⟩ :=
        List.forall₂_cons_left_iff.mp areChanges
      have step (path : String)
          : path ∈ TableChange.applied paths (Change.ofActions (u + 1 : Nat) table (acts (u + 1)))
            ↔ LivePath base acts (u + 1) path := by
        have isBase : table.fileContext.basePath = base := tableBase.trans sameBase
        rw [consistent.livePath_diff (by omega) isBase]
        simp only [TableChange.applied, Change.ofActions, Finset.mem_union, Finset.mem_sdiff,
          List.mem_toFinset, before]
        exact or_comm
      have later := ih (u := u + 1) (by omega) areRest step
      rw [Nat.add_right_comm u 1 count] at later
      exact later

end Paths

-----------------------------------------------------------------------------------------
-- Agreement
-----------------------------------------------------------------------------------------

/-- (versionsAfter u w) are the versions after u up to w, in order. -/
def versionsAfter (u w : Nat) : List Int :=
  (List.range' (u + 1) (w - u)).map fun (v : Nat) => (v : Int)

/-- (session.Covers tree place u w) says that a session is one for all versions after u up to w,
and that the actions that it keeps are those of the log.
-/
structure Session.Covers (session : Session) (tree : Tree) (place : Place) (u w : Nat) : Prop where
  start_le : session.start ≤ u + 1
  le_latest : (w : Int) ≤ session.latest
  fetched : session.FetchedFrom tree place

variable {settings : Settings} {base : Path} {tree : Tree} {log : CommitLog}
  {acts : Nat → List Action} {n u w : Nat} {identity : Identity} {session : Session}

/-- The paths of a snapshot are the live paths of its version, each once if the log is consistent.
-/
theorem paths_of_projectSnapshot {place : Place} {provider : String} {gone : Int → Prop} {v : Nat}
    {sourceIdentifier : Option String} {snapshot : Snapshot}
    (apart : ∀ v ∈ committed tree place, ¬gone v) (contiguous : Contiguous tree place n)
    (valid : ∀ u ≤ n, actionsAt tree place u = .ok (acts u))
    (consistent : Consistent place.base.text acts n) (past : v ≤ n)
    (sameBase : identity.basePath = place.base.text)
    (h : KeepsFiles tree place provider gone log)
    (returned
      : ((projectSnapshot (CommitLog.reader tree) (CommitLog.files tree) identity v
            sourceIdentifier).run log).result = .ok snapshot)
    : snapshot.paths.Nodup
      ∧ ∀ path, path ∈ snapshot.paths ↔ LivePath place.base.text acts v path := by
  obtain ⟨perm, isBase⟩ :=
    files_perm_of_projectSnapshot apart contiguous valid past h returned
  have listed := listsLive_inOrder place.base.text acts v
  have sameContext : snapshot.table.fileContext.basePath = place.base.text :=
    isBase.trans sameBase
  have paths := perm.map (·.physicalPath)
  rw [List.map_map] at paths
  have distinct := nodup_paths_of_listsLive listed consistent past sameContext
  refine ⟨paths.nodup_iff.mpr distinct, fun path => ?_⟩
  exact paths.mem_iff.trans (mem_paths_of_listsLive listed sameContext)

section Changes

variable {place : Place} {provider : String} {gone : Int → Prop}

/-- The actions of the versions between two others can be read. -/
theorem told_versionsAfter (valid : ∀ v ≤ n, actionsAt tree place v = .ok (acts v)) (past : w ≤ n)
    : ∀ v ∈ List.range' (u + 1) (w - u), actionsAt tree place (v : Nat) = .ok (acts v) := by
  intro v member
  rw [List.mem_range'_1] at member
  exact valid v (by omega)

/-- A session covers the versions between two others. -/
theorem Session.Covers.inside (covers : session.Covers tree place u w)
    : ∀ v ∈ List.range' (u + 1) (w - u),
        session.start ≤ (v : Nat) ∧ (v : Nat) ≤ session.latest := by
  intro v member
  rw [List.mem_range'_1] at member
  have := covers.start_le
  have := covers.le_latest
  omega

/-- A source whose session covers some versions is planned for them. -/
theorem Session.Covers.planned {P : CommitLog → Prop} (covers : session.Covers tree place u w)
    (h : P log)
    : Planned tree place session.start session.latest P (log, .planned session) :=
  ⟨h, session, rfl, rfl, rfl, covers.fetched⟩

/-- The changes that are told lead from one snapshot to the other. -/
theorem foldl_applied_of_changes (intact : ∀ v, ¬gone v) (contiguous : Contiguous tree place n)
    (valid : ∀ v ≤ n, actionsAt tree place v = .ok (acts v))
    (consistent : Consistent place.base.text acts n) (inOrder : u ≤ w) (past : w ≤ n)
    (sameBase : identity.basePath = place.base.text) (covers : session.Covers tree place u w)
    (h : KeepsFiles tree place provider gone log) {before after : Snapshot}
    {changes : List TableChange}
    (isBefore
      : ((projectSnapshot (CommitLog.reader tree) (CommitLog.files tree) identity u none).run
          log).result = .ok before)
    (isAfter
      : ((projectSnapshot (CommitLog.reader tree) (CommitLog.files tree) identity w none).run
          log).result = .ok after)
    (areChanges
      : (((Source.ofLog tree identity).changes (versionsAfter u w)).run
          (log, .planned session)).result = .ok changes)
    : changes.foldl TableChange.applied before.paths.toFinset = after.paths.toFinset
      ∧ before.paths.Nodup
      ∧ after.paths.Nodup := by
  have reads (v : Nat) (member : v ∈ List.range' (u + 1) (w - u)) (log : CommitLog)
      (h : KeepsFiles tree place provider gone log)
      : (CommitLog.actions tree v).Yields log (.ok (acts v))
          (KeepsFiles tree place provider gone) :=
    told_versionsAfter valid past v member ▸
      (CommitLog.actions_yields (intact v) h).mono fun _ => Keeps.keepsFiles
  have changesOf := ((covers.planned h).changes_ensures reads
    (fun _ _ => projectTable_keepsFiles _ _) (told_versionsAfter valid past)
    covers.inside).value changes areChanges
  have apart : ∀ v ∈ committed tree place, ¬gone v := fun v _ => intact v
  obtain ⟨distinctBefore, memBefore⟩ := paths_of_projectSnapshot apart contiguous valid
    consistent (inOrder.trans past) sameBase h isBefore
  obtain ⟨distinctAfter, memAfter⟩ := paths_of_projectSnapshot apart contiguous valid
    consistent past sameBase h isAfter
  refine ⟨?_, distinctBefore, distinctAfter⟩
  ext path
  have start (path : String)
      : path ∈ before.paths.toFinset ↔ LivePath place.base.text acts u path :=
    List.mem_toFinset.trans (memBefore path)
  have reached := mem_foldl_applied consistent (by omega) sameBase changesOf start path
  rw [reached, List.mem_toFinset, memAfter, Nat.add_sub_cancel' inOrder]

/-- All changes are told if the log is sound and its metadata are valid. -/
theorem changes_return (intact : ∀ v, ¬gone v) (sound : SoundLog tree place provider)
    (contiguous : Contiguous tree place n)
    (valid : ∀ v ≤ n, actionsAt tree place v = .ok (acts v)) (past : w ≤ n)
    (metadata
      : ∀ v ≤ n, ∃ metadata,
          metadataInEffect? tree place provider v = some metadata ∧ Defines identity v metadata)
    (covers : session.Covers tree place u w) (h : Agrees tree place provider gone log)
    : ∃ changes,
        (((Source.ofLog tree identity).changes (versionsAfter u w)).run
          (log, .planned session)).result = .ok changes := by
  have reads (v : Nat) (member : v ∈ List.range' (u + 1) (w - u)) (log : CommitLog)
      (h : Agrees tree place provider gone log)
      : (CommitLog.actions tree v).Yields log (.ok (acts v)) (Agrees tree place provider gone) := by
    obtain ⟨history, keeps, standing⟩ := h
    exact told_versionsAfter valid past v member ▸
      (CommitLog.actions_yields (intact v) keeps).mono fun _ keeps => ⟨history, keeps, standing⟩
  have projects (v : Nat) (member : v ∈ List.range' (u + 1) (w - u)) (log : CommitLog)
      (h : Agrees tree place provider gone log)
      : (projectTable (CommitLog.reader tree) identity v).Returns log
          (Agrees tree place provider gone) := by
    rw [List.mem_range'_1] at member
    have upTo : v ≤ n := by omega
    obtain ⟨_, inEffect, defines⟩ := metadata v upTo
    exact projectTable_returns intact sound contiguous upTo inEffect defines h
  obtain ⟨changes, yields⟩ := (covers.planned h).changes_returns reads projects
    (told_versionsAfter valid past) covers.inside
  exact ⟨changes, yields.result_eq⟩

end Changes

/-- The changes of the versions after one lead from the paths of its snapshot to those of the
snapshot at the last version, whatever the order of the actions in the versions, and no snapshot
lists a path twice. All of them are given if the log is sound and its metadata are valid.
-/
theorem changes_lead_to_snapshot (follows : Follows settings base tree log)
    (contiguous : Contiguous tree (.ofBase settings base) n)
    (valid : ∀ v ≤ n, actionsAt tree (.ofBase settings base) v = .ok (acts v))
    (consistent : Consistent base.text acts n) (inOrder : u ≤ w) (past : w ≤ n)
    (sameBase : identity.basePath = base.text)
    (covers : session.Covers tree (.ofBase settings base) u w)
    : let source := Source.ofLog tree identity
      let snapshotAt (v : Nat) :=
        ((projectSnapshot source.reader source.lister identity v none).run log).result
      let changed := ((source.changes (versionsAfter u w)).run (log, .planned session)).result
      (∀ before after changes,
        snapshotAt u = .ok before
        → snapshotAt w = .ok after
        → changed = .ok changes
        → changes.foldl TableChange.applied before.paths.toFinset = after.paths.toFinset
          ∧ before.paths.Nodup
          ∧ after.paths.Nodup)
      ∧ (SoundLog tree (.ofBase settings base) settings.defaultProvider
        → (∀ v ≤ n, ∃ metadata,
            metadataInEffect? tree (.ofBase settings base) settings.defaultProvider v
              = some metadata
            ∧ Defines identity v metadata)
        → (∃ before, snapshotAt u = .ok before)
          ∧ (∃ after, snapshotAt w = .ok after)
          ∧ ∃ changes, changed = .ok changes) := by
  intro source snapshotAt changed
  obtain ⟨gone, below, agrees⟩ := follows
  have ⟨history, keeps, _⟩ := agrees
  have intact := below.not_gone contiguous
  constructor
  · intro before after changes isBefore isAfter areChanges
    exact foldl_applied_of_changes intact contiguous valid consistent inOrder past sameBase covers
      keeps.keepsFiles isBefore isAfter areChanges
  · intro sound metadata
    have snapshots (v : Nat) (upTo : v ≤ n) : ∃ snapshot, snapshotAt v = .ok snapshot := by
      obtain ⟨_, inEffect, defines⟩ := metadata v upTo
      exact projectSnapshot_returns intact sound contiguous valid upTo inEffect defines agrees
    exact ⟨snapshots u (inOrder.trans past), snapshots w past,
      changes_return intact sound contiguous valid past metadata covers agrees⟩

/-- The session for all versions after the first one of the log of three commits. -/
def sampleSession : Session :=
  { start := 1, latest := 2 }

/-- The sample session covers the versions 1 and 2. -/
theorem covers_sampleSession
    : sampleSession.Covers sampleTree topPlace 0 2 :=
  ⟨by decide, by decide, fun _ _ fetched => by cases fetched⟩

theorem changes_lead_to_snapshot_sampleTree
    : ∃ before after changes,
        ((projectSnapshot (CommitLog.reader sampleTree) (CommitLog.files sampleTree)
            { basePath := "." } 0 none).run (.ofBase {} topPlace.base)).result = .ok before
        ∧ ((projectSnapshot (CommitLog.reader sampleTree) (CommitLog.files sampleTree)
            { basePath := "." } 2 none).run (.ofBase {} topPlace.base)).result = .ok after
        ∧ (((Source.ofLog sampleTree { basePath := "." }).changes (versionsAfter 0 2)).run
            (.ofBase {} topPlace.base, .planned sampleSession)).result = .ok changes
        ∧ changes.foldl TableChange.applied before.paths.toFinset = after.paths.toFinset
        ∧ before.paths.Nodup
        ∧ after.paths.Nodup := by
  have sameBase : Identity.basePath { basePath := "." } = topPlace.base.text := rfl
  obtain ⟨agree, told⟩ := changes_lead_to_snapshot
    (follows_ofBase {} topPlace.base sampleTree) contiguous_sampleTree actionsAt_sampleTree
    (by decide +kernel) (by decide) (by decide) sameBase covers_sampleSession
  obtain ⟨⟨before, isBefore⟩, ⟨after, isAfter⟩, changes, areChanges⟩ :=
    told soundLog_sampleTree fun v upTo =>
      ⟨sampleMetadata, metadataInEffect?_sampleTree v upTo, defines_sampleMetadata _ _⟩
  exact ⟨before, after, changes, isBefore, isAfter, areChanges,
    agree before after changes isBefore isAfter areChanges⟩

end Feed

end DeltaFeed
