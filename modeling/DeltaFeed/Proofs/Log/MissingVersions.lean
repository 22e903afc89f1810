import DeltaFeed.Proofs.Log.Interruption

/-! Listings of logs in which versions are missing. A log has to begin with version 0 to be listed,
and that is all it is asked: a listing at a version is the replay of the versions that are there, so
that a missing one is passed over, and one past the end is taken for the last.
-/

namespace DeltaFeed

def Failure.isRead : Failure → Bool
  | fault f | wrapped f _ => f.family == .read
  | _ => false

namespace Log

open Store (Tree Path)

variable {tree : Tree} {place : Place} {provider : String} {log : CommitLog} {v : Int}

-----------------------------------------------------------------------------------------
-- What a log keeps of its files, however it was called
-----------------------------------------------------------------------------------------

/-- No call makes a log keep anything but what its files hold, however it ends. -/
theorem Call.run_keepsFiles {α : Type} (call : Call α)
    : (call.run tree).Preserves (KeepsFiles tree place provider fun _ => False) := by
  intro log h
  cases call with
  | commits =>
      refine Op.Preserves.bind CommitLog.refresh_keepsFiles (fun _ => ?_) log h
      exact .bind .current fun _ => .pure _
  | activeCommit time inclusive =>
      refine Op.Preserves.bind (.ofResult _) (fun utc => ?_) log h
      refine .bind CommitLog.refresh_keepsFiles fun _ => .bind .current fun log => ?_
      split
      · exact .pure _
      · exact fun _ kept => kept
  | commitAt v => exact CommitLog.commitAt_keepsFiles log h
  | metadataAt v => exact CommitLog.metadataAt_keepsFiles log h
  | actions v =>
      exact Op.Preserves.bind CommitLog.payloads_keepsFiles (fun _ => .ofResult _) log h
  | latest => exact Op.Preserves.bind .current (fun _ => .ofResult _) log h
  | listing v table => exact (CommitLog.listing_yields (fun _ _ => id) table h).leaves.keepsFiles
  | close => exact ⟨h.place_eq, h.provider_eq, rfl, nofun⟩

theorem Asked.keepsFiles {settings : Settings} {base : Path} (h : Asked settings base tree log)
    : KeepsFiles tree (.ofBase settings base) settings.defaultProvider (fun _ => False) log := by
  induction h with
  | opened => exact ⟨rfl, rfl, rfl, nofun⟩
  | called call _ ih => exact call.run_keepsFiles _ ih

-----------------------------------------------------------------------------------------
-- The replay of the versions that are there
-----------------------------------------------------------------------------------------

/-- (actionsIn tree place v) are the file actions in the file of a version, and none where they
cannot be read.
-/
def actionsIn (tree : Tree) (place : Place) (v : Int) : List Action :=
  (actionsAt tree place v).toOption.getD []

/-- (replayOf tree place versions) are the live files after the replay of some versions. -/
def replayOf (tree : Tree) (place : Place) (versions : List Int) : LiveFiles :=
  versions.foldl (fun live v => live.replay place.base.text (actionsIn tree place v)) []

/-- (past tree place v) are the versions that are there up to one. -/
def past (tree : Tree) (place : Place) (v : Int) : List Int :=
  (committed tree place).filter (· ≤ v)

/-- (Legible tree place v) says that the file actions of a version can be read. -/
def Legible (tree : Tree) (place : Place) (v : Int) : Prop :=
  ∃ actions, actionsAt tree place v = .ok actions

theorem actionsIn_of_ok {actions : List Action} (read : actionsAt tree place v = .ok actions)
    : actionsIn tree place v = actions := by
  rw [actionsIn, read]
  rfl

/-- Versions can be replayed exactly if each of them can be read. -/
theorem replayedAt_eq_ok {versions : List Int} {live after : LiveFiles}
    : replayedAt tree place live versions = .ok after
      ↔ (∀ v ∈ versions, Legible tree place v)
        ∧ after
          = versions.foldl
              (fun live v => live.replay place.base.text (actionsIn tree place v)) live := by
  induction versions generalizing live with
  | nil => simp [replayedAt, pure, Except.pure, eq_comm]
  | cons v rest ih =>
      rw [replayedAt, bind_eq_ok, List.forall_mem_cons, List.foldl_cons, and_assoc]
      constructor
      · rintro ⟨actions, read, replayed⟩
        rw [actionsIn_of_ok read]
        exact ⟨⟨actions, read⟩, ih.mp replayed⟩
      · rintro ⟨⟨actions, read⟩, replayed⟩
        rw [actionsIn_of_ok read] at replayed
        exact ⟨actions, read, ih.mpr replayed⟩

/-- A replay fails with the failure of a version that cannot be read. -/
theorem replayedAt_eq_error {versions : List Int} {live : LiveFiles} {failure : Failure}
    (failed : replayedAt tree place live versions = .error failure)
    : ∃ v ∈ versions, actionsAt tree place v = .error failure := by
  induction versions generalizing live with
  | nil => cases failed
  | cons v rest ih =>
      rw [replayedAt] at failed
      cases read : actionsAt tree place v with
      | error cause =>
          rw [read] at failed
          cases failed
          exact ⟨v, List.mem_cons_self, read⟩
      | ok actions =>
          rw [read] at failed
          obtain ⟨u, member, unread⟩ := ih failed
          exact ⟨u, List.mem_cons_of_mem _ member, unread⟩

/-- The versions up to one begin with version 0 if it is there. -/
theorem head?_past
    : (past tree place v).head? = some 0 ↔ 0 ∈ committed tree place ∧ 0 ≤ v := by
  constructor
  · intro begins
    have first := List.mem_filter.mp (List.mem_of_mem_head? begins)
    exact ⟨first.1, of_decide_eq_true first.2⟩
  · rintro ⟨there, upTo⟩
    have zero : 0 ∈ past tree place v := List.mem_filter.mpr ⟨there, decide_eq_true upTo⟩
    have sorted : (past tree place v).Pairwise (· ≤ ·) :=
      (committed_sorted tree place).sublist List.filter_sublist
    cases split : past tree place v with
    | nil => simp [split] at zero
    | cons first rest =>
        have isThere : first ∈ past tree place v := split ▸ List.mem_cons_self
        have nonneg := committed_nonneg (List.mem_filter.mp isThere).1
        rw [split] at zero sorted
        rcases List.mem_cons.mp zero with rfl | later
        · rfl
        · have := (List.pairwise_cons.mp sorted).1 0 later
          rw [List.head?_cons, Int.le_antisymm this nonneg]

-----------------------------------------------------------------------------------------
-- Listings
-----------------------------------------------------------------------------------------

/-- (Replayable tree place v) says that version 0 is there and not past v, and that the versions
that are there up to v can be read.
-/
structure Replayable (tree : Tree) (place : Place) (v : Int) : Prop where
  begins : 0 ∈ committed tree place
  nonneg : 0 ≤ v
  legible : ∀ u ∈ committed tree place, u ≤ v → Legible tree place u

/-- (Whole tree place v) says that all versions up to v are there. -/
def Whole (tree : Tree) (place : Place) (v : Int) : Prop :=
  ∀ u, 0 ≤ u → u ≤ v → u ∈ committed tree place

/-- The live files of a log that can be listed are those of a replay, if version 0 is there. -/
theorem liveFilesAt_of_listVersions (listed : listVersions tree place = .ok (committed tree place))
    : (0 ∈ committed tree place ∧ 0 ≤ v
        ∧ liveFilesAt tree place v = replayedAt tree place [] (past tree place v))
      ∨ ¬(0 ∈ committed tree place ∧ 0 ≤ v)
        ∧ ∃ failure, liveFilesAt tree place v = .error failure ∧ failure.isRead = true := by
  have unfolded
      : liveFilesAt tree place v
        = if (past tree place v).head? ≠ some 0 then
            .error (.read .logRead
              "Log does not start at version 0; checkpoint replay is not supported" (some v))
          else replayedAt tree place [] (past tree place v) := by
    rw [liveFilesAt, listed]
    rfl
  by_cases begins : 0 ∈ committed tree place ∧ 0 ≤ v
  · rw [if_neg (not_not.mpr (head?_past.mpr begins))] at unfolded
    exact Or.inl ⟨begins.1, begins.2, unfolded⟩
  · rw [if_pos (mt head?_past.mp begins)] at unfolded
    exact Or.inr ⟨begins, _, unfolded, rfl⟩

theorem committed_eq_of_listVersions {all : List Int} (listed : listVersions tree place = .ok all)
    : listVersions tree place = .ok (committed tree place) := by
  rw [committed_of_listVersions listed, listed]

/-- There are live files to be had exactly if the log can be replayed. -/
theorem liveFilesAt_eq_ok {live : LiveFiles}
    : liveFilesAt tree place v = .ok live
      ↔ Replayable tree place v ∧ live = replayOf tree place (past tree place v) := by
  have legible_past
      : (∀ u ∈ past tree place v, Legible tree place u)
        ↔ ∀ u ∈ committed tree place, u ≤ v → Legible tree place u := by
    simp only [past, List.mem_filter, decide_eq_true_eq, and_imp]
  constructor
  · intro told
    obtain ⟨all, listed, _⟩ := bind_eq_ok.mp told
    rcases liveFilesAt_of_listVersions (v := v) (committed_eq_of_listVersions listed) with
      ⟨begins, nonneg, replayed⟩ | ⟨_, failure, failed, _⟩
    · obtain ⟨legible, same⟩ := replayedAt_eq_ok.mp (replayed.symm.trans told)
      exact ⟨⟨begins, nonneg, legible_past.mp legible⟩, same⟩
    · cases told.symm.trans failed
  · rintro ⟨⟨begins, nonneg, legible⟩, rfl⟩
    rcases liveFilesAt_of_listVersions (v := v) (listVersions_of_mem_committed begins) with
      ⟨_, _, replayed⟩ | ⟨unbegun, _⟩
    · rw [replayed]
      exact replayedAt_eq_ok.mpr ⟨legible_past.mpr legible, rfl⟩
    · exact absurd ⟨begins, nonneg⟩ unbegun

/-- Where there are no live files to be had, the read fails because version 0 is not there, or else
with the failure of the directory or of a version that is there.
-/
theorem liveFilesAt_eq_error {failure : Failure}
    (failed : liveFilesAt tree place v = .error failure)
    : (¬(0 ∈ committed tree place ∧ 0 ≤ v) ∧ failure.isRead = true)
      ∨ listVersions tree place = .error failure
      ∨ ∃ u ∈ committed tree place, u ≤ v ∧ actionsAt tree place u = .error failure := by
  cases listed : listVersions tree place with
  | error cause =>
      rw [liveFilesAt, listed] at failed
      cases failed
      exact Or.inr (Or.inl rfl)
  | ok all =>
      rcases liveFilesAt_of_listVersions (v := v) (committed_eq_of_listVersions listed) with
        ⟨_, _, replayed⟩ | ⟨unbegun, other, refused, isRead⟩
      · obtain ⟨u, member, unread⟩ := replayedAt_eq_error (replayed.symm.trans failed)
        obtain ⟨there, upTo⟩ := List.mem_filter.mp member
        exact Or.inr (Or.inr ⟨u, there, of_decide_eq_true upTo, unread⟩)
      · cases refused.symm.trans failed
        exact Or.inl ⟨unbegun, isRead⟩

/-- (Guarded tree place v result) says that a listing at a version is given only where all versions
up to it are there, and that anything else is a failed read.
-/
def Guarded (tree : Tree) (place : Place) (v : Int) : Except Failure Listing → Prop
  | .ok _ => Whole tree place v
  | .error failure => failure.isRead = true

section Calls

variable {settings : Settings} {base : Path}

/-- A log gives a listing at a version exactly if version 0 is there and the versions that are there
up to that one can be read: the listing is then the replay of these versions, whatever is missing
between them or after them. So where the files that are there can be read, the listing is guarded
exactly if, once version 0 is there, all versions up to the one asked for are.
-/
theorem listing_guarded_iff (asked : Asked settings base tree log) (v : Int) (table : Table)
    : (∀ listing,
        ((CommitLog.listing tree v table).run log).result = .ok listing
        ↔ Replayable tree (.ofBase settings base) v
          ∧ listing
            = { context := table.fileContext
                pending
                  := (replayOf tree (.ofBase settings base)
                    (past tree (.ofBase settings base) v)).inOrder })
      ∧ (Raises (·.isRead) (listVersions tree (.ofBase settings base))
        → (∀ u ∈ committed tree (.ofBase settings base), u ≤ v
            → Legible tree (.ofBase settings base) u)
        → (Guarded tree (.ofBase settings base) v ((CommitLog.listing tree v table).run log).result
          ↔ (0 ≤ v
            → 0 ∈ committed tree (.ofBase settings base)
            → Whole tree (.ofBase settings base) v))) := by
  have told := (CommitLog.listing_yields (v := v) (fun _ _ => id) table asked.keepsFiles).result_eq
  have given (listing : Listing)
      : ((CommitLog.listing tree v table).run log).result = .ok listing
        ↔ Replayable tree (.ofBase settings base) v
          ∧ listing
            = { context := table.fileContext
                pending
                  := (replayOf tree (.ofBase settings base)
                    (past tree (.ofBase settings base) v)).inOrder } := by
    rw [told, CommitLog.listingAt, bind_eq_ok]
    constructor
    · rintro ⟨live, isLive, same⟩
      obtain ⟨replayable, rfl⟩ := liveFilesAt_eq_ok.mp isLive
      exact ⟨replayable, (Except.ok.inj same).symm⟩
    · rintro ⟨replayable, rfl⟩
      exact ⟨_, liveFilesAt_eq_ok.mpr ⟨replayable, rfl⟩, rfl⟩
  refine ⟨given, fun listable legible => ?_⟩
  constructor
  · intro guarded nonneg begins
    rw [(given _).mpr ⟨⟨begins, nonneg, legible⟩, rfl⟩] at guarded
    exact guarded
  · intro whole
    cases ended : ((CommitLog.listing tree v table).run log).result with
    | ok listing =>
        obtain ⟨replayable, _⟩ := (given listing).mp ended
        exact whole replayable.nonneg replayable.begins
    | error failure =>
        rw [told, CommitLog.listingAt] at ended
        cases live : liveFilesAt tree (.ofBase settings base) v with
        | ok files =>
            rw [live] at ended
            cases ended
        | error cause =>
            rw [live] at ended
            cases ended
            rcases liveFilesAt_eq_error live with ⟨_, isRead⟩ | unlisted | ⟨u, there, upTo, unread⟩
            · exact isRead
            · exact listable failure unlisted
            · obtain ⟨actions, read⟩ := legible u there upTo
              cases read.symm.trans unread

/-- A log without version 1, whose versions change no file. -/
def sampleGapped : Tree :=
  storeOf (filesOf [(0, commitFile "{}" 1000), (2, commitFile "{}" 2000)])

def sampleTable : Table :=
  { name := "t", basePath := ".", version := 2, latestCommitTime := .utc 0 }

theorem listVersions_sampleGapped
    : listVersions sampleGapped (.ofBase {} topPlace.base) = .ok [0, 2] := by
  decide +kernel

theorem listing_guarded_iff_sampleGapped
    : let asked := ((Call.commitAt 1).run sampleGapped).run (.ofBase {} topPlace.base)
      Guarded sampleGapped (.ofBase {} topPlace.base) 2
        ((CommitLog.listing sampleGapped 2 sampleTable).run asked.state).result
      ↔ (0 ≤ (2 : Int)
        → 0 ∈ committed sampleGapped (.ofBase {} topPlace.base)
        → Whole sampleGapped (.ofBase {} topPlace.base) 2) := by
  refine (listing_guarded_iff (.called (.commitAt 1) .opened) 2 sampleTable).2 ?_ ?_
  · intro failure unlisted
    cases listVersions_sampleGapped.symm.trans unlisted
  · intro u there _
    have all : ∀ u ∈ [0, 2], (actionsAt sampleGapped (.ofBase {} topPlace.base) u).isOk = true := by
      decide +kernel
    rw [committed_of_listVersions listVersions_sampleGapped] at there
    exact isOk_iff.mp (all u there)

/-- A missing version is passed over, and so is what is asked for past the end. -/
theorem unguarded_sampleGapped
    : ¬Guarded sampleGapped (.ofBase {} topPlace.base) 2
        ((CommitLog.listing sampleGapped 2 sampleTable).run (.ofBase {} topPlace.base)).result
      ∧ ¬Guarded sampleGapped (.ofBase {} topPlace.base) 7
        ((CommitLog.listing sampleGapped 7 sampleTable).run (.ofBase {} topPlace.base)).result := by
  have unguarded {v : Int} (beyond : 1 ≤ v) {result : Except Failure Listing}
      (given : result.isOk = true)
      : ¬Guarded sampleGapped (.ofBase {} topPlace.base) v result := by
    obtain ⟨listing, rfl⟩ := isOk_iff.mp given
    intro whole
    have there := whole 1 (by decide) beyond
    rw [committed_of_listVersions listVersions_sampleGapped] at there
    exact absurd there (by decide)
  exact ⟨unguarded (by decide) (by decide +kernel), unguarded (by decide) (by decide +kernel)⟩

end Calls

end Log

end DeltaFeed
