import DeltaFeed.Proofs.Feed.Completeness
import DeltaFeed.Proofs.Feed.ExactlyOnce
import DeltaFeed.Proofs.Log.Trimming

/-! Markers in a log that is trimmed. A marker keeps the time that its commit had when the marker
was written. Once the files before the commit are deleted, later commits may have earlier times,
and a backlog from the marker then begins too late.
-/

namespace DeltaFeed.Feed

open Log
open Store (Tree Path)
open Time (Timestamp)

variable {tree before after : Tree} {place : Place} {provider : String} {first : Int}
  {commit latest : Commit}

/-- (NextStays before after place provider commit) says that the commit that comes after a commit
keeps its time when a log is trimmed.
-/
def NextStays (before after : Tree) (place : Place) (provider : String) (commit : Commit) : Prop :=
  ∀ next ∈ commitsOf before place provider,
    next.version = commit.version + 1 → next ∈ commitsOf after place provider

/-- (StillPending before after place provider commit versions) says what is left of the versions
after a commit when a log is trimmed: those that are now later than the commit was. They are all
of them exactly if the next commit keeps its time.
-/
structure StillPending (before after : Tree) (place : Place) (provider : String) (commit : Commit)
    (versions : List Int)
    : Prop where
  complete : Complete after place provider commit.timestamp versions
  isSuffix : versions <:+ (committed before place).filter (commit.version < ·)
  all_iff
    : versions = (committed before place).filter (commit.version < ·)
      ↔ NextStays before after place provider commit

theorem pendingAfter_eq_filter (consecutive : Consecutive (committed tree place))
    (isCommit : commit ∈ commitsOf tree place provider) (last : IsLast tree place provider latest)
    : pendingAfter commit latest = (committed tree place).filter (commit.version < ·) := by
  refine List.Pairwise.eq_of_mem_iff (Session.consecutive_versions _).pairwise
    (consecutive.pairwise.filter _) fun v => ?_
  rw [mem_pendingAfter consecutive isCommit last, List.mem_filter, decide_eq_true_iff]
  constructor
  · rintro ⟨other, isOther, rfl, isLater⟩
    exact ⟨version_mem_committed isOther,
      (lt_iff_of_mem_commitsOf consecutive isCommit isOther).mpr isLater⟩
  · rintro ⟨member, above⟩
    obtain ⟨other, isOther, rfl⟩ := (mem_committed_iff provider).mp member
    exact ⟨other, isOther, rfl,
      (lt_iff_of_mem_commitsOf consecutive isCommit isOther).mp above⟩

/-- The last version of a log remains when the log is trimmed. -/
theorem IsLast.trims {keptLatest : Commit} (trims : Trims place before after first)
    (stays : first ≤ latest.version) (last : IsLast before place provider latest)
    (keptLast : IsLast after place provider keptLatest)
    : keptLatest.version = latest.version := by
  obtain ⟨_, old, isOld, same⟩ := trims.exists_before keptLast.isCommit
  obtain ⟨kept, isKept, sameKept⟩ := trims.exists_kept last.isCommit stays
  have notAbove := last.upTo old isOld
  have notBelow := keptLast.upTo kept isKept
  omega

/-- From the time that a commit had, a sync of the trimmed log goes on after this commit or after a
later one.
-/
theorem Precedes.stillPending {firstKept start keptLatest : Commit}
    (consecutive : Consecutive (committed before place))
    (trims : Trims place before after first)
    (isCommit : commit ∈ commitsOf before place provider) (stays : first ≤ commit.version)
    (last : IsLast before place provider latest)
    (keptLast : IsLast after place provider keptLatest)
    (h : Precedes after place provider commit.timestamp firstKept start)
    : StillPending before after place provider commit (pendingAfter start keptLatest) := by
  have keptConsecutive := trims.consecutive consecutive
  obtain ⟨kept, isKept, same⟩ := trims.exists_kept isCommit stays
  have notLater := trims.timestamp_le consecutive isCommit isKept same
  have complete : Complete after place provider commit.timestamp
      (pendingAfter start keptLatest) :=
    (h.complete_iff keptConsecutive keptLast).mpr
      (Int.le_trans (h.first_le_of_mem isKept) notLater)
  have all : pendingAfter commit keptLatest
      = (committed before place).filter (commit.version < ·) := by
    rw [← pendingAfter_eq_filter consecutive isCommit last, pendingAfter, pendingAfter,
      last.trims trims (Int.le_trans stays (last.upTo commit isCommit)) keptLast]
  have isSuffix : pendingAfter start keptLatest
      <:+ (committed before place).filter (commit.version < ·) := by
    rw [← all]
    apply pendingAfter_suffix keptLast h.isCommit
    rw [← same]
    apply Int.not_lt.mp
    rw [lt_iff_of_mem_commitsOf keptConsecutive h.isCommit isKept]
    exact Int.not_lt.mpr ((h.upTo kept isKept).mpr (Or.inl notLater))
  refine ⟨complete, isSuffix, ?_⟩
  constructor
  · intro allPending next isNext follows
    have pending : next.version ∈ pendingAfter start keptLatest := by
      rw [allPending, List.mem_filter, decide_eq_true_iff]
      exact ⟨version_mem_committed isNext, by omega⟩
    obtain ⟨keptNext, isKeptNext, sameNext, isLater⟩ := (complete next.version).mp pending
    rw [← (trims.lt_next_iff consecutive isCommit isNext follows isKeptNext sameNext).mp isLater]
    exact isKeptNext
  · intro nextStays
    refine List.Pairwise.eq_of_mem_iff (Session.consecutive_versions _).pairwise
      (consecutive.pairwise.filter _) fun v => ⟨fun pending => isSuffix.subset pending, ?_⟩
    intro isAfter
    obtain ⟨wasThere, above⟩ := List.mem_filter.mp isAfter
    rw [decide_eq_true_iff] at above
    have between : commit.version + 1 ∈ committed before place :=
      consecutive.mem_of_between (version_mem_committed isCommit) wasThere (by omega) (by omega)
    obtain ⟨next, isNext, follows⟩ := (mem_committed_iff provider).mp between
    obtain ⟨old, isOld, rfl⟩ := (mem_committed_iff provider).mp wasThere
    obtain ⟨other, isOther, sameOther⟩ := trims.exists_kept isOld (by omega)
    have isLater : commit.timestamp < next.timestamp :=
      (lt_iff_of_mem_commitsOf consecutive isCommit isNext).mp (by omega)
    have notBefore : next.timestamp ≤ other.timestamp := by
      apply Int.not_lt.mp
      intro earlier
      have := (lt_iff_of_mem_commitsOf keptConsecutive isOther
        (nextStays next isNext follows)).mpr earlier
      omega
    exact (complete old.version).mpr
      ⟨other, isOther, sameOther, Int.lt_of_lt_of_le isLater notBefore⟩

section Backlogs

variable {settings : Settings} {base : Path} {identity : Identity} {trimmed : Tree}
  {early both : CommitLog × Phase}

/-- A marker is written for a commit of a sound log, and then files of versions below the commit are
deleted. A backlog from the marker then has the versions that are still pending: no version after
the commit is skipped exactly if the next commit keeps its time. There is no backlog only where
there are more commits than can be listed.
-/
theorem since_trims_all_iff
    (feed : SoundFeed tree (.ofBase settings base) settings.defaultProvider)
    (trims : Trims (.ofBase settings base) tree trimmed first)
    (sound : SoundLog trimmed (.ofBase settings base) settings.defaultProvider)
    (isCommit : commit ∈ commitsOf tree (.ofBase settings base) settings.defaultProvider)
    (stays : first ≤ commit.version)
    (inUse : InUse tree (.ofBase settings base) settings.defaultProvider early)
    (serves : Serves settings base trimmed both)
    : ∃ marker,
        (((Source.ofLog tree identity).markerOf commit.version).run early).result = .ok marker
        ∧ ((∃ versions,
              (((Source.ofLog trimmed identity).since marker (.whole 0)).run both).result
                = .ok versions
              ∧ StillPending tree trimmed (.ofBase settings base) settings.defaultProvider commit
                versions)
            ∨ (∃ failure,
                (((Source.ofLog trimmed identity).since marker (.whole 0)).run both).result
                  = .error failure)
              ∧ maxListed < (committed trimmed (.ofBase settings base)).length) := by
  refine ⟨_, (inUse.markerOf_yields identity feed isCommit).result_eq, ?_⟩
  obtain ⟨kept, isKept, _⟩ := trims.exists_kept isCommit stays
  obtain ⟨firstKept, start, h⟩ :=
    exists_precedes settings.defaultProvider (List.ne_nil_of_mem (trims.mem_committed.mpr
      ⟨trims.remains, Int.le_refl first⟩)) commit.timestamp
  obtain ⟨latest, isLatest, told, upTo⟩ := exists_latest_of_mem isCommit
  obtain ⟨keptLatest, isKeptLatest, keptTold, keptUpTo⟩ := exists_latest_of_mem isKept
  obtain ⟨⟨gone, below, agrees⟩, notClosed⟩ := serves
  have unmoved : Marker.movedBack commit.timestamp (.whole 0) = .ok commit.timestamp := rfl
  have planned := feed.since_yields identity isCommit unmoved below.apart sound h.resumes keptTold
    agrees notClosed
  rw [planned.result_eq]
  cases listed : Session.listed { start := start.version + 1, latest := keptLatest.version } with
  | error failure =>
      exact Or.inr ⟨⟨failure, rfl⟩, lt_length_committed (trims.consecutive feed.consecutive)
        h.isCommit isKeptLatest listed⟩
  | ok versions =>
      obtain rfl := Session.listed_eq_ok listed
      exact Or.inl ⟨_, rfl, h.stillPending feed.consecutive trims isCommit stays
        ⟨isLatest, told, upTo⟩ ⟨isKeptLatest, keptTold, keptUpTo⟩⟩

theorem since_trims_all_iff_sampleTrimmed
    : ∃ marker versions,
        (((Source.ofLog sampleTree { basePath := "." }).markerOf 1).run
          (.ofBase {} topPlace.base, .fresh)).result = .ok marker
        ∧ (((Source.ofLog sampleTrimmed { basePath := "." }).since marker (.whole 0)).run
          (.ofBase {} topPlace.base, .fresh)).result = .ok versions
        ∧ StillPending sampleTree sampleTrimmed topPlace "parquet"
          { version := 1, timestamp := .utc 1700000000001000 } versions := by
  have isCommit : { version := 1, timestamp := .utc 1700000000001000 }
      ∈ commitsOf sampleTree topPlace "parquet" := by
    decide +kernel
  obtain ⟨marker, written, pending⟩ :=
    @since_trims_all_iff sampleTree 1 _ {} topPlace.base { basePath := "." } sampleTrimmed
      _ (.ofBase {} topPlace.base, .fresh) soundFeed_sampleTree trims_sampleTrimmed
      (by decide +kernel) isCommit (by decide) (inUse_opened {} topPlace.base sampleTree)
      ⟨follows_ofBase {} topPlace.base sampleTrimmed, nofun⟩
  rcases pending with ⟨versions, planned, stillPending⟩ | ⟨_, many⟩
  · exact ⟨marker, versions, written, planned, stillPending⟩
  · exact absurd many (by decide +kernel)

/-- The files of a log whose clock was set back after the first commit. -/
def sampleSetBack : List (String × Store.Node) :=
  filesOf
    [(0, commitFile "{}" 1700000000000),
      (1, commitFile "{}" 1600000000000),
      (2, commitFile "{}" 1600000000001)]

/-- Those that remain when the first of them is deleted. -/
def sampleSetBackTrimmed : List (String × Store.Node) :=
  sampleSetBack.filter fun entry => entry.1 ∉ [0].map (fileName topPlace.digits)

/-- Once the first file is deleted, the marker of the second commit is later than the third commit,
and no backlog from the marker has it.
-/
theorem skipped_sampleSetBackTrimmed
    : SoundFeed (storeOf sampleSetBack) topPlace "parquet"
      ∧ Trims topPlace (storeOf sampleSetBack) (storeOf sampleSetBackTrimmed) 1
      ∧ SoundLog (storeOf sampleSetBackTrimmed) topPlace "parquet"
      ∧ (((Source.ofLog (storeOf sampleSetBack) { basePath := "." }).markerOf 1).run
          (.ofBase {} topPlace.base, .fresh)).result = .ok "2023-11-14T22:13:20.001Z"
      ∧ committed (storeOf sampleSetBackTrimmed) topPlace = [1, 2]
      ∧ (((Source.ofLog (storeOf sampleSetBackTrimmed) { basePath := "." }).since
          "2023-11-14T22:13:20.001Z" (.whole 0)).run (.ofBase {} topPlace.base, .fresh)).result
        = .ok [] := by
  refine ⟨by decide +kernel, ?_, by decide +kernel, by decide +kernel, by decide +kernel,
    by decide +kernel⟩
  exact trims_storeOf (by decide +kernel) (by decide +kernel) (by decide +kernel)

end Backlogs

end DeltaFeed.Feed
