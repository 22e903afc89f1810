import DeltaFeed.Proofs.Feed.Sessions
import DeltaFeed.Schema.Record
import Mathlib.Data.List.Sort

/-! When a backlog is complete. A sync goes on from the commit that is active at an instant: the
backlog has all commits that are later than the instant exactly if there is a commit at or before
it, which is what the check for a safe sync decides.
-/

namespace DeltaFeed

open Log
open Store (Tree Path)
open Time (Timestamp)

-----------------------------------------------------------------------------------------
-- Checked backlogs
-----------------------------------------------------------------------------------------

namespace Schema

theorem asItems_go_int (index : Nat) (versions : List Int)
    : asItems.go asInt index (versions.map .int) = .good versions := by
  induction versions generalizing index with
  | nil => rfl
  | cons v rest ih =>
      rw [List.map_cons, asItems.go, ih]
      rfl

/-- Versions pass the check of a backlog if they strictly increase. -/
theorem asBacklog_ofBacklog {versions : List Int} (sorted : StrictlyIncreasing versions)
    : asBacklog (.ofBacklog versions) = .good versions := by
  have items : asVersions (.list (versions.map .int)) = .good versions := by
    rw [asVersions, asItems, asItems_go_int, Checked.ensure, if_pos (decide_eq_true sorted)]
  have given : [("commits_to_process", Value.ofList .int versions)].lookup "commits_to_process"
      = some (.list (versions.map .int)) := rfl
  simp only [asBacklog, Value.ofBacklog, asModel, optional, given, items]
  rfl

end Schema

namespace Feed

variable {tree : Tree} {place : Place} {provider : String} {now later : Timestamp}
  {first commit latest : Commit} {v : Int}

-----------------------------------------------------------------------------------------
-- The commit that a sync goes on from
-----------------------------------------------------------------------------------------

/-- (Precedes tree place provider now first commit) says that a sync from an instant goes on after a
commit of a log with a first commit: the last commit that is not later than the instant, or else the
first.
-/
structure Precedes (tree : Tree) (place : Place) (provider : String) (now : Timestamp)
    (first commit : Commit)
    : Prop where
  begins : (commitsOf tree place provider).head? = some first
  isCommit : commit ∈ commitsOf tree place provider
  resumes : Resumes tree place provider now commit
  upTo
    : ∀ other ∈ commitsOf tree place provider,
        other.timestamp ≤ commit.timestamp ↔ other.timestamp ≤ now ∨ other = first

/-- A log that has a commit has one to resume from. -/
theorem exists_precedes (provider : String) (nonempty : committed tree place ≠ [])
    (now : Timestamp)
    : ∃ first commit, Precedes tree place provider now first commit := by
  have some : commitsOf tree place provider ≠ [] := by
    intro none
    have versions := commitsOf_versions tree place provider
    rw [none] at versions
    exact nonempty versions.symm
  obtain ⟨first, rest, begins⟩ := List.exists_cons_of_ne_nil some
  obtain ⟨commit, isCommit, active, upTo⟩ :=
    History.exists_activeAt (commitsOf_pairwise tree place provider) begins now true
  refine ⟨first, commit, by rw [begins]; rfl, isCommit, ?_, upTo⟩
  rw [Resumes, historyAt_of_mem isCommit]
  simp only [bind, Except.bind, activeIn, active]

namespace Precedes

theorem isFirst (h : Precedes tree place provider now first commit)
    : first ∈ commitsOf tree place provider :=
  List.mem_of_mem_head? h.begins

/-- The commit that a sync resumes from is not before the first. -/
theorem first_le (h : Precedes tree place provider now first commit)
    : first.timestamp ≤ commit.timestamp :=
  (h.upTo first h.isFirst).mpr (Or.inr rfl)

/-- No commit is before the first. -/
theorem first_le_of_mem {other : Commit} (h : Precedes tree place provider now first commit)
    (isOther : other ∈ commitsOf tree place provider)
    : first.timestamp ≤ other.timestamp := by
  obtain ⟨rest, begins⟩ := List.head?_eq_some_iff.mp h.begins
  have byTime := commitsOf_pairwise tree place provider
  rw [begins] at byTime isOther
  rcases List.mem_cons.mp isOther with rfl | later
  · exact Int.le_refl other.timestamp.instant
  · exact Int.le_of_lt ((List.pairwise_cons.mp byTime).1 other later)

/-- The commit is not later than the instant exactly if there is one that is not. -/
theorem le_iff (h : Precedes tree place provider now first commit)
    : commit.timestamp ≤ now ↔ first.timestamp ≤ now := by
  constructor
  · exact Int.le_trans h.first_le
  · intro early
    rcases (h.upTo commit h.isCommit).mp (Int.le_refl _) with past | rfl
    · exact past
    · exact early

/-- A sync from a later instant goes on after a commit that is not earlier. -/
theorem version_le {other : Commit} (consecutive : Consecutive (committed tree place))
    (inOrder : now ≤ later) (h : Precedes tree place provider now first commit)
    (h' : Precedes tree place provider later first other)
    : commit.version ≤ other.version := by
  apply Int.not_lt.mp
  rw [lt_iff_of_mem_commitsOf consecutive h'.isCommit h.isCommit]
  apply Int.not_lt.mpr
  apply (h'.upTo commit h.isCommit).mpr
  rcases (h.upTo commit h.isCommit).mp (Int.le_refl _) with past | isFirst
  · exact Or.inl (Int.le_trans past inOrder)
  · exact Or.inr isFirst

end Precedes

-----------------------------------------------------------------------------------------
-- The versions of the backlog
-----------------------------------------------------------------------------------------

/-- (IsLast tree place provider latest) says that a commit is the last one of a log. -/
structure IsLast (tree : Tree) (place : Place) (provider : String) (latest : Commit) : Prop where
  isCommit : latest ∈ commitsOf tree place provider
  told : latestVersion tree place = .ok latest.version
  upTo : ∀ other ∈ commitsOf tree place provider, other.version ≤ latest.version

/-- (pendingAfter commit latest) are the versions after a commit, up to a latest one. -/
def pendingAfter (commit latest : Commit) : List Int :=
  Session.versions { start := commit.version + 1, latest := latest.version }

/-- The versions that are pending after a commit are those of later commits. -/
theorem mem_pendingAfter (consecutive : Consecutive (committed tree place))
    (isCommit : commit ∈ commitsOf tree place provider)
    (last : IsLast tree place provider latest)
    : v ∈ pendingAfter commit latest
      ↔ ∃ other ∈ commitsOf tree place provider,
          other.version = v ∧ commit.timestamp < other.timestamp := by
  rw [pendingAfter, Session.mem_versions]
  constructor
  · rintro ⟨above, below⟩
    have between : v ∈ committed tree place :=
      consecutive.mem_of_between (version_mem_committed isCommit)
        (version_mem_committed last.isCommit)
        (Int.le_trans (Int.le_add_one (Int.le_refl _)) above) below
    obtain ⟨other, isOther, rfl⟩ := (mem_committed_iff provider).mp between
    exact ⟨other, isOther, rfl, (lt_iff_of_mem_commitsOf consecutive isCommit isOther).mp above⟩
  · rintro ⟨other, isOther, rfl, isLater⟩
    exact ⟨(lt_iff_of_mem_commitsOf consecutive isCommit isOther).mpr isLater,
      last.upTo other isOther⟩

/-- (Complete tree place provider now versions) says that versions are exactly those whose commits
are later than an instant.
-/
def Complete (tree : Tree) (place : Place) (provider : String) (now : Timestamp)
    (versions : List Int)
    : Prop :=
  ∀ v,
    v ∈ versions
    ↔ ∃ commit ∈ commitsOf tree place provider, commit.version = v ∧ now < commit.timestamp

/-- All later commits are pending exactly if the first commit of the log is not among them. -/
theorem Precedes.complete_iff (consecutive : Consecutive (committed tree place))
    (last : IsLast tree place provider latest)
    (h : Precedes tree place provider now first commit)
    : Complete tree place provider now (pendingAfter commit latest) ↔ first.timestamp ≤ now := by
  constructor
  · intro complete
    apply Int.not_lt.mp
    intro isLater
    obtain ⟨other, isOther, same, after⟩ :=
      (mem_pendingAfter consecutive h.isCommit last).mp
        ((complete first.version).mpr ⟨first, h.isFirst, rfl, isLater⟩)
    obtain rfl := eq_of_version_eq consecutive isOther h.isFirst same
    exact absurd h.first_le (Int.not_le.mpr after)
  · intro early v
    rw [mem_pendingAfter consecutive h.isCommit last]
    refine exists_congr fun other => and_congr_right fun isOther => and_congr_right fun _ => ?_
    rw [← Timestamp.not_le, ← Timestamp.not_le, h.upTo other isOther, not_or]
    refine and_iff_left_of_imp fun isLater => ?_
    rintro rfl
    exact isLater early

/-- From an instant before the log all versions but the first are pending. -/
theorem Precedes.eq_tail (consecutive : Consecutive (committed tree place))
    (last : IsLast tree place provider latest) (early : now < first.timestamp)
    (h : Precedes tree place provider now first commit)
    : pendingAfter commit latest = (committed tree place).tail := by
  have isFirst : commit = first := by
    rcases (h.upTo commit h.isCommit).mp (Int.le_refl _) with past | isFirst
    · exact absurd (Int.le_trans h.first_le past) (Int.not_le.mpr early)
    · exact isFirst
  subst isFirst
  obtain ⟨rest, begins⟩ := List.head?_eq_some_iff.mp h.begins
  have versions := commitsOf_versions tree place provider
  have inOrder := consecutive.pairwise
  have byTime := commitsOf_pairwise tree place provider
  rw [← versions, begins, List.map_cons] at inOrder
  rw [begins] at byTime
  rw [← versions, begins, List.map_cons, List.tail_cons]
  refine List.Pairwise.eq_of_mem_iff (Session.consecutive_versions _).pairwise
    (List.pairwise_cons.mp inOrder).2 fun v => ?_
  rw [mem_pendingAfter consecutive h.isCommit last]
  constructor
  · rintro ⟨other, isOther, rfl, isLater⟩
    rw [begins] at isOther
    rcases List.mem_cons.mp isOther with rfl | inRest
    · exact absurd isLater (Int.lt_irrefl _)
    · exact List.mem_map_of_mem inRest
  · intro member
    obtain ⟨other, inRest, rfl⟩ := List.mem_map.mp member
    refine ⟨other, begins ▸ List.mem_cons_of_mem _ inRest, rfl, ?_⟩
    exact (List.pairwise_cons.mp byTime).1 other inRest

/-- The backlog from a later instant is the end of that from an earlier one. -/
theorem pendingAfter_suffix {other : Commit} (last : IsLast tree place provider latest)
    (isOther : other ∈ commitsOf tree place provider) (below : commit.version ≤ other.version)
    : pendingAfter other latest <:+ pendingAfter commit latest :=
  ⟨_, Session.versions_append (by omega) (last.upTo other isOther)⟩

/-- The versions that are pending end with the last one of the log, if there are any. -/
theorem pendingAfter_ends (last : IsLast tree place provider latest)
    : pendingAfter commit latest = []
      ∨ (pendingAfter commit latest).getLast? = (committed tree place).getLast? := by
  have ends := Session.getLast?_versions { start := commit.version + 1, latest := latest.version }
  rw [getLast?_committed last.told, pendingAfter, ends]
  split
  case isTrue => exact Or.inr rfl
  case isFalse none =>
    rw [if_neg none] at ends
    exact Or.inl (List.getLast?_eq_none_iff.mp ends)

-----------------------------------------------------------------------------------------
-- Backlogs and the check for a safe sync
-----------------------------------------------------------------------------------------

/-- (Serves settings base tree both) says that a source is not closed, and that its log keeps, of
the versions that are there, what their files say.
-/
structure Serves (settings : Settings) (base : Path) (tree : Tree) (both : CommitLog × Phase)
    : Prop where
  follows : Follows settings base tree both.1
  notClosed : both.2 ≠ .closed

section Backlogs

variable {settings : Settings} {base : Path} {identity : Identity} {both : CommitLog × Phase}
  {t : Timestamp}

/-- A source tells that a sync from an instant is safe exactly if the first commit is not after it.
-/
theorem isSafeFrom_result (sound : SoundLog tree (.ofBase settings base) settings.defaultProvider)
    (serves : Serves settings base tree both) (utc : t.toUtc = .ok now)
    (h : Precedes tree (.ofBase settings base) settings.defaultProvider now first commit)
    : (((Source.ofLog tree identity).isSafeFrom (.moment t)).run both).result
      = .ok (decide (first.timestamp ≤ now)) := by
  obtain ⟨⟨gone, below, agrees⟩, notClosed⟩ := serves
  have led
      : (do
          let utc ← now.toUtc
          activeIn (← historyAt tree (.ofBase settings base) settings.defaultProvider) utc true)
        = .ok commit := by
    rw [Timestamp.toUtc_of_toUtc utc]
    exact h.resumes
  have decided {log : CommitLog}
      (agrees : Agrees tree (.ofBase settings base) settings.defaultProvider gone log)
      : (isSafeFrom (CommitLog.reader tree) (.moment t)).Yields log
          (.ok (decide (first.timestamp ≤ now))) (fun _ => True) := by
    refine .bind (Q := Agrees tree _ _ gone) ⟨utc, agrees⟩ fun log agrees => ?_
    refine .bind (led ▸ CommitLog.activeCommit_yields below.apart sound agrees now true) ?_
    intro log _
    rw [← decide_eq_decide.mpr h.le_iff]
    exact .pure _ trivial
  have asked
      : ((Source.ofLog tree identity).isSafeFrom (.moment t)).Yields both
          (.ok (decide (first.timestamp ≤ now))) (fun _ => True) := by
    refine .bind (Source.ensureOpen_yields _ agrees notClosed) fun both after => ?_
    exact ((decided after.1).onFirst both.2).mono fun _ _ => trivial
  exact asked.result_eq

/-- A wrapped instant cannot be asked about, as it is not taken out first. -/
theorem isSafeFrom_lastSync (notClosed : both.2 ≠ .closed)
    : (((Source.ofLog tree identity).isSafeFrom (.lastSync t)).run both).result
      = .error .noSuchMember := by
  have refused {log : CommitLog}
      : (isSafeFrom (CommitLog.reader tree) (.lastSync t)).Yields log
          (.error .noSuchMember) (fun _ => True) :=
    .bind_error (.ofResult _ trivial)
  have asked
      : ((Source.ofLog tree identity).isSafeFrom (.lastSync t)).Yields both
          (.error .noSuchMember) (fun _ => True) := by
    refine .bind (Source.ensureOpen_yields (P := fun _ => True) _ trivial notClosed) ?_
    intro both _
    exact (refused.onFirst both.2).mono fun _ _ => trivial
  exact asked.result_eq

/-- The backlog since an instant, wrapped or not, is what is pending after the commit to resume
from.
-/
theorem backlog_result (sound : SoundLog tree (.ofBase settings base) settings.defaultProvider)
    (serves : Serves settings base tree both) {instant : Value}
    (wrapped : instant ∈ [.moment t, .lastSync t]) (utc : t.toUtc = .ok now)
    (h : Precedes tree (.ofBase settings base) settings.defaultProvider now first commit)
    (last : IsLast tree (.ofBase settings base) settings.defaultProvider latest)
    : (((Source.ofLog tree identity).backlog instant).run both).result
      = Session.listed { start := commit.version + 1, latest := latest.version } := by
  obtain ⟨⟨gone, below, agrees⟩, notClosed⟩ := serves
  exact (backlog_yields identity below.apart sound wrapped utc h.resumes last.told agrees
    notClosed).result_eq

/-- (Resolved tree place provider now safe versions) says what the backlog from an instant amounts
to: consecutive versions up to the last one, which a check lets pass. They are those of all later
commits exactly if a sync from the instant is safe, and all but the first version if not.
-/
structure Resolved (tree : Tree) (place : Place) (provider : String) (now : Timestamp)
    (safe : Bool) (versions : List Int)
    : Prop where
  consecutive : Consecutive versions
  checked : Schema.asBacklog (.ofBacklog versions) = .good versions
  ends : versions = [] ∨ versions.getLast? = (committed tree place).getLast?
  complete : Complete tree place provider now versions ↔ safe = true
  otherwise : safe = false → versions = (committed tree place).tail

/-- What is pending after the commit to resume from is complete exactly if the first commit is not
after the instant. Then no commit between the two is missed, and otherwise the first one is.
-/
theorem Precedes.resolved (consecutive : Consecutive (committed tree place))
    (last : IsLast tree place provider latest)
    (h : Precedes tree place provider now first commit)
    : Resolved tree place provider now (decide (first.timestamp ≤ now))
        (pendingAfter commit latest) where
  consecutive := Session.consecutive_versions _
  checked := Schema.asBacklog_ofBacklog (Session.consecutive_versions _).pairwise
  ends := pendingAfter_ends last
  complete := (h.complete_iff consecutive last).trans decide_eq_true_iff.symm
  otherwise early := h.eq_tail consecutive last (Timestamp.not_le.mp (of_decide_eq_false early))

/-- From an instant, whether or not it is wrapped, a backlog is resolved as the check for a safe
sync decides: it is safe exactly if the first commit is not later than the instant. From a later
instant the backlog is the end of that backlog. There is no backlog only where there are more
commits than can be listed. The check itself does not take a wrapped instant.
-/
theorem backlog_complete_iff_isSafeFrom {other : CommitLog × Phase} {u : Timestamp}
    (sound : SoundLog tree (.ofBase settings base) settings.defaultProvider)
    (consecutive : Consecutive (committed tree (.ofBase settings base)))
    (nonempty : committed tree (.ofBase settings base) ≠ [])
    (serves : Serves settings base tree both) (servesOther : Serves settings base tree other)
    (utc : t.toUtc = .ok now) (utcLater : u.toUtc = .ok later) (inOrder : now ≤ later)
    : ∃ safe,
        (((Source.ofLog tree identity).isSafeFrom (.moment t)).run both).result = .ok safe
        ∧ (((Source.ofLog tree identity).isSafeFrom (.lastSync t)).run both).result
          = .error .noSuchMember
        ∧ (safe = true
          ↔ ∃ first,
              (commitsOf tree (.ofBase settings base) settings.defaultProvider).head?
                = some first
              ∧ first.timestamp ≤ now)
        ∧ ∀ instant ∈ [.moment t, .lastSync t],
            (∃ versions,
              (((Source.ofLog tree identity).backlog instant).run both).result = .ok versions
              ∧ Resolved tree (.ofBase settings base) settings.defaultProvider now safe versions
              ∧ ∀ instant ∈ [.moment u, .lastSync u], ∀ fewer,
                  (((Source.ofLog tree identity).backlog instant).run other).result = .ok fewer
                  → fewer <:+ versions)
            ∨ (∃ failure,
                (((Source.ofLog tree identity).backlog instant).run both).result
                  = .error failure
                ∧ ∀ issues, failure ≠ .invalid issues)
              ∧ maxListed < (committed tree (.ofBase settings base)).length := by
  obtain ⟨first, commit, h⟩ := exists_precedes settings.defaultProvider nonempty now
  obtain ⟨first', commit', h'⟩ := exists_precedes settings.defaultProvider nonempty later
  obtain rfl : first' = first := Option.some.inj (h'.begins.symm.trans h.begins)
  obtain ⟨latest, isLatest, told, upTo⟩ := exists_latest_of_mem h.isCommit
  have last : IsLast tree (.ofBase settings base) settings.defaultProvider latest :=
    ⟨isLatest, told, upTo⟩
  refine ⟨decide (first'.timestamp ≤ now), isSafeFrom_result sound serves utc h,
    isSafeFrom_lastSync serves.notClosed, ?_, fun instant wrapped => ?_⟩
  · rw [decide_eq_true_iff]
    constructor
    · exact fun early => ⟨first', h.begins, early⟩
    · rintro ⟨first, begins, early⟩
      obtain rfl := Option.some.inj (begins.symm.trans h.begins)
      exact early
  · rw [backlog_result sound serves wrapped utc h last]
    cases listed : Session.listed { start := commit.version + 1, latest := latest.version } with
    | error failure =>
        refine Or.inr ⟨⟨failure, rfl, ?_⟩,
          lt_length_committed consecutive h.isCommit isLatest listed⟩
        rintro issues rfl
        exact Session.listed_ne_invalid listed
    | ok versions =>
        obtain rfl := Session.listed_eq_ok listed
        refine Or.inl ⟨_, rfl, h.resolved consecutive last, fun instant wrapped fewer isFewer => ?_⟩
        rw [backlog_result sound servesOther wrapped utcLater h' last] at isFewer
        obtain rfl := Session.listed_eq_ok isFewer
        exact pendingAfter_suffix last h'.isCommit (h.version_le consecutive inOrder h')

/-- An instant between the first two commits of a log of three, on a clock without an offset. -/
def sampleInstant : Timestamp :=
  { wall := 1700000000000500, offset := none }

theorem serves_sampleTree
    : Serves {} topPlace.base sampleTree (.ofBase {} topPlace.base, .fresh) :=
  ⟨follows_ofBase {} topPlace.base sampleTree, nofun⟩

/-- The sample instant is half a second after the first commit. -/
theorem toUtc_sampleInstant
    : sampleInstant.toUtc = .ok (.utc 1700000000000500) := by
  decide +kernel

theorem backlog_complete_iff_isSafeFrom_sampleTree
    : ∃ safe versions,
        (((Source.ofLog sampleTree { basePath := "." }).isSafeFrom (.moment sampleInstant)).run
          (.ofBase {} topPlace.base, .fresh)).result = .ok safe
        ∧ (((Source.ofLog sampleTree { basePath := "." }).backlog (.lastSync sampleInstant)).run
          (.ofBase {} topPlace.base, .fresh)).result = .ok versions
        ∧ Resolved sampleTree topPlace "parquet" (.utc 1700000000000500) safe versions := by
  obtain ⟨safe, decided, _, _, resolved⟩ :=
    @backlog_complete_iff_isSafeFrom sampleTree _ _ {} topPlace.base { basePath := "." } _ _ _ _
      soundLog_sampleTree (by decide +kernel) (by decide +kernel) serves_sampleTree
      serves_sampleTree toUtc_sampleInstant toUtc_sampleInstant (Int.le_refl _)
  rcases resolved (.lastSync sampleInstant) (by simp) with
    ⟨versions, told, isResolved, _⟩ | ⟨_, many⟩
  · exact ⟨safe, versions, decided, told, isResolved⟩
  · exact absurd many (by decide +kernel)

/-- The check for a safe sync refuses an instant that is wrapped, where a backlog does not. -/
theorem isSafeFrom_lastSync_sampleTree
    : (commitsOf sampleTree topPlace "parquet").head?
        = some { version := 0, timestamp := .utc 1700000000000000 }
      ∧ Timestamp.utc 1700000000000000 ≤ .utc 1700000000000500
      ∧ (((Source.ofLog sampleTree { basePath := "." }).backlog (.lastSync sampleInstant)).run
          (.ofBase {} topPlace.base, .fresh)).result = .ok [1, 2]
      ∧ (((Source.ofLog sampleTree { basePath := "." }).isSafeFrom (.lastSync sampleInstant)).run
          (.ofBase {} topPlace.base, .fresh)).result = .error .noSuchMember := by
  refine ⟨?_, ?_, ?_, ?_⟩ <;> decide +kernel

end Backlogs

end Feed

end DeltaFeed
