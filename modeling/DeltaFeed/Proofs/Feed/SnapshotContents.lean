import DeltaFeed.Feed.Projection
import DeltaFeed.Proofs.File.Grouping
import DeltaFeed.Proofs.Log.CachedReading
import DeltaFeed.Proofs.Log.Liveness

/-! What listings and snapshots of a table contain: the last addition of each live file. A
snapshot has the files of the listing in groups, none of which loses a file or makes one up.
-/

namespace DeltaFeed

-----------------------------------------------------------------------------------------
-- Listings
-----------------------------------------------------------------------------------------

/-- Reporting on statistics leaves the state as it is. -/
theorem Statistics.report_yields {σ : Type} {s : σ} {Q : σ → Prop} (stats : Option String) (h : Q s)
    : (Statistics.report stats : Op σ Unit).Yields s (.ok ()) Q := by
  unfold Statistics.report
  split
  · exact ⟨rfl, h⟩
  · exact .pure () h

/-- An added file is converted to its data file, whatever is reported of its statistics. -/
theorem DataFile.convertAdd_yields {σ : Type} {s : σ} {Q : σ → Prop} (context : FileContext)
    (file : AddFile) (h : Q s)
    : (DataFile.convertAdd context file).Yields s (.ok (DataFile.ofAdd context file)) Q := by
  unfold DataFile.convertAdd
  split
  · exact .bind (Statistics.report_yields file.stats h) fun _ h => .pure _ h
  · exact .pure _ h

namespace Log

open Store (Tree Path)

/-- A listing gives the data files of its actions, one after the other. -/
theorem Listing.takeUpTo_yields (context : FileContext) (pending : List AddFile)
    : (takeUpTo pending.length).Yields { context, pending }
        (.ok (pending.map (DataFile.ofAdd context))) (fun _ => True) := by
  induction pending with
  | nil => exact .pure [] trivial
  | cons file rest ih =>
      have first : next.Yields { context, pending := file :: rest }
          (.ok (some (DataFile.ofAdd context file))) (· = { context, pending := rest }) := by
        apply Op.Yields.bind_current
        apply Op.Yields.bind (DataFile.convertAdd_yields (Q := (· = _)) context file rfl)
        intro _ same
        subst same
        exact .bind_change (.pure _ rfl)
      apply Op.Yields.bind first
      intro _ same
      subst same
      exact .bind ih fun _ _ => .pure _ trivial

/-- Draining a listing converts all files that are pending. -/
theorem Listing.drain_yields (listing : Listing)
    : drain.Yields listing (.ok (listing.pending.map (DataFile.ofAdd listing.context)))
        (fun _ => True) :=
  .bind_current (takeUpTo_yields listing.context listing.pending)

section Files

variable {tree : Tree} {place : Place} {provider : String} {gone : Int → Prop}
  {history : History} {log : CommitLog} {acts : Nat → List Action} {n v : Nat}

/-- The data files of a table at a version of a contiguous log are those of the listing of its
live files, whatever the files of later versions say.
-/
theorem CommitLog.files_yields_upTo (apart : ∀ v ∈ committed tree place, ¬gone v)
    (contiguous : Contiguous tree place n)
    (valid : ∀ u ≤ v, actionsAt tree place u = .ok (acts u)) (past : v ≤ n) (table : Table)
    (h : Keeps tree place provider gone history log)
    : (files tree v table).Yields log
        (.ok ((replayedTo place.base.text acts v).inOrder.map
          (DataFile.ofAdd table.fileContext)))
        (Keeps tree place provider gone history) := by
  have listed := listing_yields (v := v) apart table h
  rw [listingAt, liveFilesAt_eq_replayedTo contiguous valid past] at listed
  exact .bind listed fun log keeps => .onState (Listing.drain_yields _) keeps

/-- The files of a version are listed as its replay has them. -/
theorem CommitLog.files_yields (apart : ∀ v ∈ committed tree place, ¬gone v)
    (contiguous : Contiguous tree place n)
    (valid : ∀ u ≤ n, actionsAt tree place u = .ok (acts u)) (past : v ≤ n) (table : Table)
    (h : Keeps tree place provider gone history log)
    : (files tree v table).Yields log
        (.ok ((replayedTo place.base.text acts v).inOrder.map
          (DataFile.ofAdd table.fileContext)))
        (Keeps tree place provider gone history) :=
  files_yields_upTo apart contiguous (fun u upTo => valid u (Nat.le_trans upTo past)) past table h

end Files

/-- (metadataInEffect? tree place provider v) are the metadata that the files of a contiguous log
record last up to a version.
-/
def metadataInEffect? (tree : Tree) (place : Place) (provider : String) (v : Nat)
    : Option Metadata :=
  ((upTo v).flatMap fun u => (recorded tree place provider u).metadata).getLast?

section InEffect

variable {tree : Tree} {place : Place} {provider : String} {n v : Nat}

/-- The history of a contiguous log tells the metadata that are in effect. -/
theorem metadataAt_historyOf_upTo {metadata : Metadata} (past : v ≤ n)
    (inEffect : metadataInEffect? tree place provider v = some metadata)
    : (historyOf tree place provider (upTo n)).metadataAt v = .ok metadata := by
  rw [metadataInEffect?] at inEffect
  rw [metadataAt_historyOf (upTo_sorted n), filter_upTo past, inEffect]
  rfl

end InEffect

end Log

namespace Feed

open Log
open Store (Tree Path)

-----------------------------------------------------------------------------------------
-- Snapshots
-----------------------------------------------------------------------------------------

/-- (Defines identity version metadata) says that metadata are valid for a table: its schema can
be read, and its files have a format that is known.
-/
def Defines (identity : Identity) (version : Int) (metadata : Metadata) : Prop :=
  ∀ commit, ∃ table, tableOf identity version metadata commit = .ok table

section Snapshots

variable {tree : Tree} {place : Place} {provider : String} {gone : Int → Prop}
  {history : History} {log : CommitLog} {acts : Nat → List Action} {n v : Nat}
  {identity : Identity} {sourceIdentifier : Option String}

/-- Asking for the definition of a table keeps the files. -/
theorem projectTable_keepsFiles (identity : Identity) (version : Int)
    : (projectTable (CommitLog.reader tree) identity version).Preserves
        (KeepsFiles tree place provider gone) :=
  .bind CommitLog.metadataAt_keepsFiles fun _ =>
    .bind CommitLog.commitAt_keepsFiles fun _ => .ofResult _

/-- The definition of a table can be projected if the log is sound and the metadata in effect are
valid.
-/
theorem projectTable_returns (intact : ∀ v, ¬gone v) (sound : SoundLog tree place provider)
    (contiguous : Contiguous tree place n) (past : v ≤ n) {metadata : Metadata}
    (inEffect : metadataInEffect? tree place provider v = some metadata)
    (valid : Defines identity v metadata) (h : Agrees tree place provider gone log)
    : (projectTable (CommitLog.reader tree) identity v).Returns log
        (Agrees tree place provider gone) := by
  have told : historyAt tree place provider
      = .ok (historyOf tree place provider (upTo n)) :=
    historyAt_of_listVersions provider contiguous
  obtain ⟨commit, found, _, _⟩
      : ∃ commit,
          (historyOf tree place provider (upTo n)).commitAt v = .ok commit
          ∧ commit ∈ (historyOf tree place provider (upTo n)).commits
          ∧ commit.version = v :=
    commitAt_historyOf (mem_upTo.mpr ⟨v, past, rfl⟩)
  obtain ⟨table, defined⟩ := valid commit
  have described := CommitLog.metadataAt_yields (v := v) intact sound h
  simp only [told, bind, Except.bind, found, metadataAt_historyOf_upTo past inEffect] at described
  refine ⟨table, .bind described fun log agrees => ?_⟩
  have dated := CommitLog.commitAt_yields (v := v) intact sound agrees
  simp only [told, bind, Except.bind, found] at dated
  apply Op.Yields.bind dated
  intro log after
  exact defined ▸ .ofResult _ after.1

/-- A table has the base of its source, and the version that it was asked for. -/
theorem identity_of_tableOf {version : Int} {metadata : Metadata} {commit : Commit} {table : Table}
    (h : tableOf identity version metadata commit = .ok table)
    : table.basePath = identity.basePath ∧ table.version = version := by
  obtain ⟨schema, _, h⟩ := bind_eq_ok.mp h
  obtain ⟨format, _, h⟩ := bind_eq_ok.mp h
  obtain ⟨readSchema, _, h⟩ := bind_eq_ok.mp h
  cases h
  exact ⟨rfl, rfl⟩

/-- A table that is told has the base of its source. -/
theorem basePath_of_projectTable {ρ : Type} (reader : Reader ρ) (s : ρ) {version : Int}
    {table : Table}
    (h : ((projectTable reader identity version).run s).result = .ok table)
    : table.basePath = identity.basePath := by
  have ensures
      : (projectTable reader identity version).Ensures s
          (·.basePath = identity.basePath) (fun _ => True) := by
    refine .bind (R := fun _ => True) (Q := fun _ => True) ⟨fun _ _ => trivial, trivial⟩ ?_
    intro metadata s _ _
    refine .bind (R := fun _ => True) (Q := fun _ => True) ⟨fun _ _ => trivial, trivial⟩ ?_
    intro commit s _ _
    exact .ofResult (fun _ defined => (identity_of_tableOf defined).1) trivial
  exact ensures.value table h

/-- (groupsOf version files) are listed files in groups; a listing that failed is a failed
iteration.
-/
def groupsOf (version : Int) (files : Except Failure (List DataFile))
    : Except Failure (List FileGroup) :=
  match files with
  | .ok files => .ok (FileGroup.ofFiles files)
  | .error cause =>
    let shown := cause.text
    let detail := s!"Failed to iterate through Delta data files: {shown}"
    .error (.readFrom cause .fileIteration detail (some version))

/-- The groups of a version are made of what the lister gives. -/
theorem listFiles_yields {ρ : Type} {lister : Lister ρ} {version : Int} {table : Table} {s : ρ}
    {Q : ρ → Prop} {files : Except Failure (List DataFile)}
    (h : (lister version table).Yields s files Q)
    : (listFiles lister version table).Yields s (groupsOf version files) Q := by
  refine .bind h.attempt fun s after => ?_
  cases files with
  | error cause => exact .bind_tell (.fail _ after)
  | ok files => exact .bind_tell (.pure _ after)

/-- A snapshot has the files of the listing of the live files, unless its table cannot be defined.
-/
theorem projectSnapshot_result (apart : ∀ v ∈ committed tree place, ¬gone v)
    (contiguous : Contiguous tree place n)
    (valid : ∀ u ≤ n, actionsAt tree place u = .ok (acts u)) (past : v ≤ n)
    (h : KeepsFiles tree place provider gone log)
    : ((projectSnapshot (CommitLog.reader tree) (CommitLog.files tree) identity v
          sourceIdentifier).run log).result
      = (fun table => {
          table
          groups := FileGroup.ofFiles ((replayedTo place.base.text acts v).inOrder.map
            (DataFile.ofAdd table.fileContext))
          sourceIdentifier := (nonEmpty sourceIdentifier).getD (Text.decimal v) })
        <$> ((projectTable (CommitLog.reader tree) identity v).run log).result := by
  have kept : KeepsFiles tree place provider gone
      ((projectTable (CommitLog.reader tree) identity v).run log).state :=
    projectTable_keepsFiles identity v log h
  unfold projectSnapshot
  cases defined : ((projectTable (CommitLog.reader tree) identity v).run log).result with
  | error failure => rw [Op.run_bind_error defined]; rfl
  | ok table =>
      have listed := CommitLog.files_yields apart contiguous valid past table kept
      have grouped := (listFiles_yields listed).result_eq
      rw [Op.run_bind_ok defined]
      dsimp only
      rw [Op.run_bind_ok grouped]
      rfl

/-- A snapshot has the files of the listing of the live files. -/
theorem files_perm_of_projectSnapshot (apart : ∀ v ∈ committed tree place, ¬gone v)
    (contiguous : Contiguous tree place n)
    (valid : ∀ u ≤ n, actionsAt tree place u = .ok (acts u)) (past : v ≤ n)
    (h : KeepsFiles tree place provider gone log) {snapshot : Snapshot}
    (returned
      : ((projectSnapshot (CommitLog.reader tree) (CommitLog.files tree) identity v
            sourceIdentifier).run log).result = .ok snapshot)
    : snapshot.files.Perm ((replayedTo place.base.text acts v).inOrder.map
          (DataFile.ofAdd snapshot.table.fileContext))
      ∧ snapshot.table.basePath = identity.basePath := by
  rw [projectSnapshot_result apart contiguous valid past h] at returned
  cases defined : ((projectTable (CommitLog.reader tree) identity v).run log).result with
  | error failure =>
      rw [defined] at returned
      cases returned
  | ok table =>
      rw [defined] at returned
      cases returned
      exact ⟨FileGroup.flatMap_files_ofFiles _, basePath_of_projectTable _ _ defined⟩

/-- There is a snapshot if the log is sound and the metadata in effect are valid. -/
theorem projectSnapshot_returns (intact : ∀ v, ¬gone v) (sound : SoundLog tree place provider)
    (contiguous : Contiguous tree place n)
    (valid : ∀ u ≤ n, actionsAt tree place u = .ok (acts u)) (past : v ≤ n)
    {metadata : Metadata} (inEffect : metadataInEffect? tree place provider v = some metadata)
    (defines : Defines identity v metadata) (h : Agrees tree place provider gone log)
    : ∃ snapshot,
        ((projectSnapshot (CommitLog.reader tree) (CommitLog.files tree) identity v
            sourceIdentifier).run log).result = .ok snapshot := by
  have ⟨_, keeps, _⟩ := h
  obtain ⟨table, projected⟩ :=
    projectTable_returns intact sound contiguous past inEffect defines h
  rw [projectSnapshot_result (fun v _ => intact v) contiguous valid past keeps.keepsFiles,
    projected.result_eq]
  exact ⟨_, rfl⟩

/-- The data files at a version are the last additions of its live files, one for each of them. A
snapshot has the same files, and there is one if the log is sound and the metadata in effect are
valid.
-/
theorem files_of_live {settings : Settings} {base : Path}
    (follows : Follows settings base tree log)
    (contiguous : Contiguous tree (.ofBase settings base) n)
    (valid : ∀ u ≤ n, actionsAt tree (.ofBase settings base) u = .ok (acts u)) (past : v ≤ n)
    : ∃ adds,
        ListsLive base.text acts v adds
        ∧ (∀ table,
            ((CommitLog.files tree v table).run log).result
              = .ok (adds.map (DataFile.ofAdd table.fileContext)))
        ∧ ∀ identity sourceIdentifier,
            (∀ snapshot,
              ((projectSnapshot (CommitLog.reader tree) (CommitLog.files tree) identity v
                  sourceIdentifier).run log).result = .ok snapshot
              → snapshot.files.Perm (adds.map (DataFile.ofAdd snapshot.table.fileContext)))
            ∧ ∀ metadata,
                SoundLog tree (.ofBase settings base) settings.defaultProvider
                → metadataInEffect? tree (.ofBase settings base) settings.defaultProvider v
                  = some metadata
                → Defines identity v metadata
                → ∃ snapshot,
                    ((projectSnapshot (CommitLog.reader tree) (CommitLog.files tree) identity v
                      sourceIdentifier).run log).result = .ok snapshot := by
  obtain ⟨gone, below, agrees⟩ := follows
  have ⟨history, keeps, _⟩ := agrees
  refine ⟨_, listsLive_inOrder base.text acts v, fun table => ?_, fun identity source => ⟨?_, ?_⟩⟩
  · exact (CommitLog.files_yields below.apart contiguous valid past table keeps).result_eq
  · intro snapshot returned
    exact (files_perm_of_projectSnapshot below.apart contiguous valid past keeps.keepsFiles
      returned).1
  · intro metadata sound inEffect defines
    exact projectSnapshot_returns (below.not_gone contiguous) sound contiguous valid past inEffect
      defines agrees

/-- The actions of the versions of the log of three commits. -/
def sampleActions : Nat → List Action
  | 0 => [.add { path := "a" }, .add { path := "b" }]
  | 1 =>
    [.remove { path := "a" },
      .add {
        path := "a"
        deletionVector := some { storageType := "u", pathOrInline := "x" } }]
  | 2 => [.remove { path := "b" }]
  | _ => []

/-- The files of the sample log have the sample actions. -/
theorem actionsAt_sampleTree
    : ∀ u ≤ 2, actionsAt sampleTree topPlace (u : Nat) = .ok (sampleActions u) := by
  decide +kernel

/-- The sample log has the versions 0, 1 and 2. -/
theorem contiguous_sampleTree
    : Contiguous sampleTree topPlace 2 := by
  unfold Contiguous
  decide +kernel

/-- The metadata in effect at all versions of that log. -/
def sampleMetadata : Metadata :=
  { tableId := some "t", formatProvider := "parquet" }

theorem metadataInEffect?_sampleTree
    : ∀ v ≤ 2, metadataInEffect? sampleTree topPlace "parquet" v = some sampleMetadata := by
  decide +kernel

/-- The sample metadata define a table at each version. -/
theorem defines_sampleMetadata (identity : Identity) (version : Int)
    : Defines identity version sampleMetadata := by
  intro commit
  have format : FileFormat.ofProvider (some sampleMetadata.formatProvider) = .ok .parquet := by
    decide +kernel
  rw [tableOf, format]
  exact ⟨_, rfl⟩

theorem files_of_live_sampleTree
    : ∃ adds snapshot,
        ListsLive "." sampleActions 2 adds
        ∧ (∀ table,
            ((CommitLog.files sampleTree 2 table).run (.ofBase {} topPlace.base)).result
              = .ok (adds.map (DataFile.ofAdd table.fileContext)))
        ∧ ((projectSnapshot (CommitLog.reader sampleTree) (CommitLog.files sampleTree)
            { basePath := "." } 2 none).run (.ofBase {} topPlace.base)).result = .ok snapshot
        ∧ snapshot.files.Perm (adds.map (DataFile.ofAdd snapshot.table.fileContext)) := by
  obtain ⟨adds, listed, files, snapshots⟩ := files_of_live
    (follows_ofBase {} topPlace.base sampleTree) contiguous_sampleTree actionsAt_sampleTree
    (Nat.le_refl 2)
  obtain ⟨contents, told⟩ := snapshots { basePath := "." } none
  obtain ⟨snapshot, returned⟩ := told sampleMetadata soundLog_sampleTree
    (metadataInEffect?_sampleTree 2 (Nat.le_refl 2)) (defines_sampleMetadata _ _)
  exact ⟨adds, snapshot, listed, files, returned, contents snapshot returned⟩

end Snapshots

end Feed

end DeltaFeed
