import DeltaFeed.Proofs.Feed.LifeCycle
import DeltaFeed.Proofs.Log.Past

/-! Answers about a version depend on the past alone. A source that was asked anything before, on a
log that grew meanwhile, tells the table, the snapshot and the change of a version as they were
when the version was the latest. This holds too if the log grows while a snapshot is made.
-/

namespace DeltaFeed.Feed

open Log
open Store (Tree Path)

variable {tree before after : Tree} {place : Place} {provider : String}
  {identity : Identity} {v : Int} {log : CommitLog} {both : CommitLog × Phase}

-----------------------------------------------------------------------------------------
-- What the files tell
-----------------------------------------------------------------------------------------

/-- (tableToldAt tree place provider identity v) is the definition of a table as of a version, as
the files of its log tell it.
-/
def tableToldAt (tree : Tree) (place : Place) (provider : String) (identity : Identity) (v : Int)
    : Except Failure Table := do
  let metadata ← (Call.metadataAt v).told tree place provider
  let commit ← (Call.commitAt v).told tree place provider
  tableOf identity v metadata commit

/-- (filesToldAt tree place v table) are the data files of a table that are live at a version. -/
def filesToldAt (tree : Tree) (place : Place) (v : Int) (table : Table)
    : Except Failure (List DataFile) := do
  let live ← liveFilesAt tree place v
  return live.inOrder.map (DataFile.ofAdd table.fileContext)

/-- (snapshotToldAt tree place provider identity v) is the snapshot as of a version. -/
def snapshotToldAt (tree : Tree) (place : Place) (provider : String) (identity : Identity)
    (v : Int) (sourceIdentifier : Option String)
    : Except Failure Snapshot := do
  let table ← tableToldAt tree place provider identity v
  let groups ← groupsOf v (filesToldAt tree place v table)
  let sourceIdentifier := (nonEmpty sourceIdentifier).getD (Text.decimal v)
  return { table, groups, sourceIdentifier }

/-- (changeToldAt tree place provider identity v) is what a version changed. -/
def changeToldAt (tree : Tree) (place : Place) (provider : String) (identity : Identity) (v : Int)
    : Except Failure TableChange := do
  let actions ← actionsAt tree place v
  let table ← tableToldAt tree place provider identity v
  return Change.ofActions v table actions

-----------------------------------------------------------------------------------------
-- A log that grows between the reads
-----------------------------------------------------------------------------------------

/-- (Source.whileGrowing resolved described dated listed identity) is a source whose log is in other
trees for the latest version, for metadata, for commits and for listings. A read that meets more
than one tree is as good as one that finds all in the tree whose versions it lists, since the file
of no version is touched when later ones are added.
-/
def Source.whileGrowing (resolved described dated listed : Tree) (identity : Identity)
    : Source CommitLog :=
  { reader :=
      { CommitLog.reader resolved with
        metadataAt := CommitLog.metadataAt described
        commitAt := CommitLog.commitAt dated }
    lister := CommitLog.files listed
    identity }

section Yields

variable {described dated listed : Tree}

/-- The definition of a past version is told as it was, also if the log grows between the two reads.
-/
theorem projectTable_yields (resolved listed : Tree) (identity : Identity)
    (toDescribed : Extends place provider before described)
    (toDated : Extends place provider described dated) (member : v ∈ committed before place)
    (h : Agrees described place provider (fun _ => False) log)
    : (projectTable (Source.whileGrowing resolved described dated listed identity).reader
          identity v).Yields log
        (tableToldAt before place provider identity v)
        (Agrees dated place provider fun _ => False) := by
  have metadata := h.yields_past (.metadataAt v) toDescribed rfl member
  refine .seq metadata (fun log => toDated.agrees) fun metadata log _ h => ?_
  have commit := (toDated.agrees h).yields_past (.commitAt v) (toDescribed.trans toDated) rfl member
  exact .seq commit (fun _ => id) fun commit log _ h => .ofResult _ h

/-- The files of a past version are listed as they were, once the listing is drained. -/
theorem listing_yields (toListed : Extends place provider before listed)
    (member : v ∈ committed before place) (table : Table)
    (h : Agrees listed place provider (fun _ => False) log)
    : (CommitLog.files listed v table).Yields log (filesToldAt before place v table)
        (Agrees listed place provider fun _ => False) := by
  have listing := h.yields_past (.listing v table) toListed rfl member
  have drained := Op.Yields.seq listing (fun _ => id) fun listing log _ h =>
    .onState (Listing.drain_yields listing) h
  have same
      : (do
          let listing ← (Call.listing v table).told before place provider
          return listing.pending.map (DataFile.ofAdd listing.context))
        = filesToldAt before place v table := by
    rw [Call.told, CommitLog.listingAt, filesToldAt]
    cases liveFilesAt before place v <;> rfl
  exact same ▸ drained

/-- The snapshot of a past version is told as it was, from its definition and its listing. -/
theorem projectSnapshot_yields (resolved : Tree) (identity : Identity)
    (sourceIdentifier : Option String) (toDescribed : Extends place provider before described)
    (toDated : Extends place provider described dated)
    (toListed : Extends place provider dated listed) (member : v ∈ committed before place)
    (h : Agrees described place provider (fun _ => False) log)
    : (projectSnapshot (Source.whileGrowing resolved described dated listed identity).reader
          (CommitLog.files listed) identity v sourceIdentifier).Yields log
        (snapshotToldAt before place provider identity v sourceIdentifier)
        (Agrees listed place provider fun _ => False) := by
  refine .seq (projectTable_yields resolved listed identity toDescribed toDated member h)
    (fun _ => toListed.agrees) ?_
  intro table log _ h
  have files := listing_yields ((toDescribed.trans toDated).trans toListed) member table
    (toListed.agrees h)
  exact .seq (listFiles_yields files) (fun _ => id) fun groups log _ h => .pure _ h

/-- The numeral of a version is not empty, so that no other identifier takes its place. -/
theorem nonEmpty_decimal (v : Int)
    : (nonEmpty (some (Text.decimal v))).getD (Text.decimal v) = Text.decimal v := by
  rw [nonEmpty, Option.filter_some]
  split <;> rfl

/-- A snapshot that is told has the definition of its version, and its files. -/
theorem contents_of_snapshotToldAt {sourceIdentifier : Option String} {snapshot : Snapshot}
    (h : snapshotToldAt before place provider identity v sourceIdentifier = .ok snapshot)
    : snapshot.table.version = v
      ∧ snapshot.sourceIdentifier = (nonEmpty sourceIdentifier).getD (Text.decimal v)
      ∧ ∃ live,
          liveFilesAt before place v = .ok live
          ∧ snapshot.groups
            = FileGroup.ofFiles
                (live.inOrder.map (DataFile.ofAdd snapshot.table.fileContext)) := by
  obtain ⟨table, told, h⟩ := bind_eq_ok.mp h
  obtain ⟨groups, grouped, h⟩ := bind_eq_ok.mp h
  obtain ⟨metadata, _, told⟩ := bind_eq_ok.mp told
  obtain ⟨commit, _, told⟩ := bind_eq_ok.mp told
  cases h
  refine ⟨(identity_of_tableOf told).2, rfl, ?_⟩
  unfold filesToldAt at grouped
  cases found : liveFilesAt before place v with
  | error failure =>
      rw [found] at grouped
      cases grouped
  | ok live =>
      rw [found] at grouped
      cases grouped
      exact ⟨live, rfl, rfl⟩

end Yields

-----------------------------------------------------------------------------------------
-- Sources in use
-----------------------------------------------------------------------------------------

/-- (FetchedIn tree place phase) says that a session in force keeps actions as the log has them. -/
def FetchedIn (tree : Tree) (place : Place) (phase : Phase) : Prop :=
  ∀ session, phase = .planned session → session.FetchedFrom tree place

/-- Actions that were kept stay those of the log when it grows. -/
theorem FetchedIn.extend {phase : Phase} (fetched : FetchedIn before place phase)
    (h : Extends place provider before after)
    : FetchedIn after place phase := by
  obtain ⟨_, _, grows⟩ := h
  intro session inForce u actions kept
  exact grows.actionsAt_eq_ok (fetched session inForce u actions kept)

/-- A source on a sound log keeps actions as the log has them: only a session that is in force
fetches any, and it keeps what it is told.
-/
theorem keeps_fetchedIn (identity : Identity) (sound : SoundLog tree place provider)
    : (Source.ofLog tree identity).Keeps (Agrees tree place provider fun _ => False)
        (FetchedIn tree place) := by
  refine keeps_ofLog identity sound ?_ ?_
  · intro phase fetched
    cases phase with
    | fresh => exact nofun
    | ready | planned | closed => exact fetched
  · rintro v log session agrees fetched _ ⟨⟩
    have told := agrees.answers (.actions v) (fun _ _ => id) sound fun _ _ => id
    exact (fetched session rfl).after told.symm

/-- (Attends settings base identity tree both) says that a source on a log that was opened at a base
is in some state, after the log grew and the source was called, in any order, and that the directory
of the log looks as in a tree now. The logs are sound throughout; whether the calls succeeded does
not matter.
-/
inductive Attends (settings : Settings) (base : Path) (identity : Identity)
    : Tree → CommitLog × Phase → Prop where
  | opened (tree : Tree)
    : SoundLog tree (.ofBase settings base) settings.defaultProvider
      → Attends settings base identity tree (.ofBase settings base, .fresh)
  | grown {before after : Tree} {both : CommitLog × Phase}
    : Attends settings base identity before both
      → Extends (.ofBase settings base) settings.defaultProvider before after
      → Attends settings base identity after both
  | called {tree : Tree} {both : CommitLog × Phase} {α : Type} (call : Source.Call α)
    : Attends settings base identity tree both
      → Attends settings base identity tree
          ((call.run (Source.ofLog tree identity)).run both).state
  | projected {tree : Tree} {both : CommitLog × Phase} (v : Int) (sourceIdentifier : Option String)
    : Attends settings base identity tree both
      → Attends settings base identity tree
          (((projectSnapshot (CommitLog.reader tree) (CommitLog.files tree) identity v
              sourceIdentifier).run both.1).state, both.2)

/-- (Attended tree place provider both) says that the log of a source agrees with its files, all of
which are there, and that its session keeps actions as the log has them.
-/
structure Attended (tree : Tree) (place : Place) (provider : String) (both : CommitLog × Phase)
    : Prop where
  sound : SoundLog tree place provider
  agrees : Agrees tree place provider (fun _ => False) both.1
  fetched : FetchedIn tree place both.2

/-- A source stays in agreement with its files through a call. Only closing forgets what is known,
and only a new session begins without actions.
-/
theorem Attended.called {α : Type} (h : Attended tree place provider both) (identity : Identity)
    (call : Source.Call α)
    : Attended tree place provider ((call.run (Source.ofLog tree identity)).run both).state := by
  cases closes : call.closes with
  | true =>
      cases call with
      | close =>
          by_cases closed : both.2 = .closed
          · rw [Source.Call.run, Source.close_closed closed]
            exact h
          · rw [Source.Call.run, Source.state_close _ closed]
            refine ⟨h.sound, h.agrees.forget, fun _ planned => ?_⟩
            cases planned
      | _ => cases closes
  | false =>
      have begins (session : Session) (new : session.fetched = [])
          : FetchedIn tree place (.planned session) := by
        rintro _ ⟨⟩ u actions kept
        rw [new] at kept
        cases kept
      have kept := (keeps_fetchedIn identity h.sound).run call closes (fun _ => begins) both
        ⟨h.agrees, h.fetched⟩
      exact ⟨h.sound, kept.1, kept.2⟩

/-- A source in use agrees with its files, by induction on what happened to it. -/
theorem Attends.attended {settings : Settings} {base : Path}
    (h : Attends settings base identity tree both)
    : Attended tree (.ofBase settings base) settings.defaultProvider both := by
  induction h with
  | opened tree sound => exact ⟨sound, agrees_ofBase _ _ _ _, nofun⟩
  | grown _ grew ih =>
      exact ⟨grew.1, grew.agrees ih.agrees, ih.fetched.extend grew⟩
  | called call _ ih => exact ih.called identity call
  | projected v sourceIdentifier _ ih =>
      have keeps := keeps_fetchedIn identity ih.sound
      have kept := keeps.projectSnapshot v sourceIdentifier _ ih.agrees
      exact ⟨ih.sound, kept, ih.fetched⟩

-----------------------------------------------------------------------------------------
-- Answers as of a version
-----------------------------------------------------------------------------------------

section Answers

variable {session : Session}

/-- A source in use tells the table of a past version as it was. -/
theorem Attended.tableAt_result (h : Attended after place provider both)
    (grew : Extends place provider before after) (member : v ∈ committed before place)
    (notClosed : both.2 ≠ .closed)
    : (((Source.ofLog after identity).tableAt v).run both).result
      = tableToldAt before place provider identity v := by
  have opened := (Source.ofLog after identity).ensureOpen_yields h.agrees notClosed
  refine Op.Yields.result_eq (Q := fun _ => True) (.bind opened fun both known => ?_)
  obtain ⟨log, phase⟩ := both
  have projected := projectTable_yields after after identity grew (.refl grew.1) member
    known.1
  exact ⟨projected.result_eq, trivial⟩

/-- A source in use tells the snapshot of a past version as it was. -/
theorem Attended.snapshot_result (identity : Identity) (h : Attended after place provider both)
    (grew : Extends place provider before after) (member : v ∈ committed before place)
    (sourceIdentifier : Option String)
    : ((projectSnapshot (CommitLog.reader after) (CommitLog.files after) identity v
          sourceIdentifier).run both.1).result
      = snapshotToldAt before place provider identity v sourceIdentifier :=
  (projectSnapshot_yields after identity sourceIdentifier grew (.refl grew.1)
    (.refl grew.1) member h.agrees).result_eq

/-- The current snapshot is that of the version that was the latest when it was asked for. -/
theorem Attended.currentSnapshot_result {described dated listed : Tree} (identity : Identity)
    (h : Attended before place provider both) (told : latestVersion before place = .ok v)
    (toDescribed : Extends place provider before described)
    (toDated : Extends place provider described dated)
    (toListed : Extends place provider dated listed) (notClosed : both.2 ≠ .closed)
    : ((Source.whileGrowing before described dated listed identity).currentSnapshot.run both).result
      = snapshotToldAt before place provider identity v (some (Text.decimal v)) := by
  have member : v ∈ committed before place := List.mem_of_getLast? (getLast?_committed told)
  let source := Source.whileGrowing before described dated listed identity
  have opened := source.ensureOpen_yields h.agrees notClosed
  refine Op.Yields.result_eq (Q := fun _ => True) (.bind opened fun both known => ?_)
  obtain ⟨log, phase⟩ := both
  have latest := (told ▸ CommitLog.latest_yields known.1).onFirst phase
  refine .bind latest fun both known => ?_
  obtain ⟨log, phase⟩ := both
  have projected := projectSnapshot_yields before identity (some (Text.decimal v)) toDescribed
    toDated toListed member (toDescribed.agrees known.1)
  exact .bind_tell ⟨projected.result_eq, trivial⟩

/-- A source in use tells the change of a past version as it was, whether the session has its
actions at hand or fetches them now.
-/
theorem Attended.change_result (h : Attended after place provider both)
    (grew : Extends place provider before after) (member : v ∈ committed before place)
    (planned : both.2 = .planned session) (inside : v ∈ session.versions)
    : (((Source.ofLog after identity).change v).run both).result
      = changeToldAt before place provider identity v := by
  have told : actionsAt after place v = actionsAt before place v := by
    obtain ⟨_, _, grows⟩ := grew
    exact grows.actionsAt_eq member
  let agreeing := Agrees after place provider fun _ => False
  have isPlanned : Planned after place session.start session.latest agreeing both :=
    ⟨h.agrees, session, planned, rfl, rfl, h.fetched session planned⟩
  have reads (log : CommitLog) (h : agreeing log)
      : (CommitLog.actions after v).Yields log (actionsAt before place v) agreeing :=
    h.yields_past (.actions v) grew rfl member
  have range := Session.mem_versions.mp inside
  refine Op.Yields.result_eq (Q := fun _ => True) ?_
  refine .bind (isPlanned.ensureOpen _) fun both isPlanned => ?_
  refine .seq (isPlanned.sessionActions reads told range) (fun _ _ => trivial) ?_
  intro actions both _ isPlanned
  obtain ⟨log, phase⟩ := both
  have projected := projectTable_yields after after identity grew (.refl grew.1) member
    isPlanned.log
  refine .seq (Q := fun _ => True) ⟨projected.result_eq, trivial⟩ (fun _ => id) ?_
  intro table both _ _
  exact Change.extract_yields v table actions trivial

end Answers

/-- (SameAsOf identity v before both after other) says that two sources, on a log before and after
it grew, tell the same as of a version.
-/
structure SameAsOf (identity : Identity) (v : Int) (before : Tree) (both : CommitLog × Phase)
    (after : Tree) (other : CommitLog × Phase)
    : Prop where
  table (notClosed : both.2 ≠ .closed) (otherNotClosed : other.2 ≠ .closed)
    : (((Source.ofLog before identity).tableAt v).run both).result
      = (((Source.ofLog after identity).tableAt v).run other).result
  snapshot (sourceIdentifier : Option String)
    : ((projectSnapshot (CommitLog.reader before) (CommitLog.files before) identity v
          sourceIdentifier).run both.1).result
      = ((projectSnapshot (CommitLog.reader after) (CommitLog.files after) identity v
          sourceIdentifier).run other.1).result
  change {session otherSession : Session} (planned : both.2 = .planned session)
    (otherPlanned : other.2 = .planned otherSession) (inside : v ∈ session.versions)
    (otherInside : v ∈ otherSession.versions)
    : (((Source.ofLog before identity).change v).run both).result
      = (((Source.ofLog after identity).change v).run other).result

/-- (IsSnapshotAt settings base identity tree v result) says that a result is that of the snapshot
of a version, as a log that is newly opened makes it. The snapshot has the definition of the version
and the files that are live then.
-/
structure IsSnapshotAt (settings : Settings) (base : Path) (identity : Identity) (tree : Tree)
    (v : Int) (result : Except Failure Snapshot)
    : Prop where
  same
    : result
      = ((projectSnapshot (CommitLog.reader tree) (CommitLog.files tree) identity v none).run
          (.ofBase settings base)).result
  contents (snapshot : Snapshot) (returned : result = .ok snapshot)
    : snapshot.table.version = v
      ∧ snapshot.sourceIdentifier = Text.decimal v
      ∧ ∃ live,
          liveFilesAt tree (.ofBase settings base) v = .ok live
          ∧ snapshot.groups
            = FileGroup.ofFiles (live.inOrder.map (DataFile.ofAdd snapshot.table.fileContext))

/-- What a source tells as of a version depends on the past alone: it is the same after the log
grew, whatever either source was asked before. The current snapshot is that of the version that was
the latest when it was asked for, even if the log grows from one of its reads to the next.
-/
theorem same_as_of_version {settings : Settings} {base : Path} {other : CommitLog × Phase}
    (first : Attends settings base identity before both)
    (second : Attends settings base identity after other)
    (grew : Extends (.ofBase settings base) settings.defaultProvider before after)
    (member : v ∈ committed before (.ofBase settings base))
    : SameAsOf identity v before both after other
      ∧ ∀ described dated listed,
          latestVersion before (.ofBase settings base) = .ok v
          → both.2 ≠ .closed
          → Extends (.ofBase settings base) settings.defaultProvider before described
          → Extends (.ofBase settings base) settings.defaultProvider described dated
          → Extends (.ofBase settings base) settings.defaultProvider dated listed
          → IsSnapshotAt settings base identity before v
              ((Source.whileGrowing before described dated listed identity).currentSnapshot.run
                both).result := by
  have attended := first.attended
  have otherAttended := second.attended
  have same : Extends (.ofBase settings base) settings.defaultProvider before before :=
    .refl attended.sound
  constructor
  · constructor
    case table =>
      intro notClosed otherNotClosed
      rw [attended.tableAt_result same member notClosed,
        otherAttended.tableAt_result grew member otherNotClosed]
    case snapshot =>
      intro sourceIdentifier
      rw [attended.snapshot_result identity same member,
        otherAttended.snapshot_result identity grew member]
    case change =>
      intro session otherSession planned otherPlanned inside otherInside
      rw [attended.change_result same member planned inside,
        otherAttended.change_result grew member otherPlanned otherInside]
  · intro described dated listed told notClosed toDescribed toDated toListed
    have snapshot :=
      attended.currentSnapshot_result identity told toDescribed toDated toListed notClosed
    have fresh : Attends settings base identity before (.ofBase settings base, .fresh) :=
      .opened before attended.sound
    constructor
    case same =>
      have told := fresh.attended.snapshot_result identity same member none
      rw [snapshot, told, snapshotToldAt, snapshotToldAt, nonEmpty_decimal]
      rfl
    case contents =>
      intro returned isReturned
      rw [snapshot] at isReturned
      obtain ⟨version, source, files⟩ := contents_of_snapshotToldAt isReturned
      exact ⟨version, source.trans (nonEmpty_decimal v), files⟩

/-- The sample log before and after its third commit tells the same as of version 0. -/
theorem same_as_of_version_sampleTree
    : SameAsOf { basePath := "." } 0
        (storeOf (filesOf sampleStart)) (.ofBase {} topPlace.base, .fresh)
        sampleTree (.ofBase {} topPlace.base, .fresh)
      ∧ IsSnapshotAt {} topPlace.base { basePath := "." } (storeOf (filesOf sampleStart)) 0
          ((Source.whileGrowing (storeOf (filesOf sampleStart)) sampleTree sampleTree sampleTree
              { basePath := "." }).currentSnapshot.run
            (.ofBase {} topPlace.base, .fresh)).result := by
  have start : Extends topPlace "parquet" (storeOf (filesOf sampleStart)) sampleTree :=
    ⟨soundLog_sampleTree, _, grows_sampleTree⟩
  have rest : Extends topPlace "parquet" sampleTree sampleTree := .refl soundLog_sampleTree
  have first
      : Attends {} topPlace.base { basePath := "." } (storeOf (filesOf sampleStart))
          (.ofBase {} topPlace.base, .fresh) :=
    .opened _ (by decide +kernel)
  have second
      : Attends {} topPlace.base { basePath := "." } sampleTree
          (.ofBase {} topPlace.base, .fresh) :=
    .opened _ soundLog_sampleTree
  have member : (0 : Int) ∈ committed (storeOf (filesOf sampleStart)) topPlace := by decide +kernel
  have same := same_as_of_version first second start member
  exact ⟨same.1, same.2 _ _ _ (by decide +kernel) nofun start rest rest⟩

end DeltaFeed.Feed
