import DeltaFeed.Proofs.Log.CachedReading
import DeltaFeed.Proofs.Time.Calendar
import Mathlib.Data.List.Nodup
import Mathlib.Data.List.Pairwise

/-! Commits and their instants. The times of the commits of a log strictly increase, so that the
instant of a commit leads back to it; and a log that grows keeps the commits that it had, with
their times.
-/

namespace DeltaFeed.Log

open Store (Tree)
open Time (Timestamp)

variable {tree before after : Tree} {place : Place} {provider : String}

/-- (commitsOf tree place provider) are the commits of a log as its files tell them. -/
def commitsOf (tree : Tree) (place : Place) (provider : String) : List Commit :=
  (historyOf tree place provider (committed tree place)).commits

-----------------------------------------------------------------------------------------
-- Times
-----------------------------------------------------------------------------------------

/-- The instants of timed commits are their adjusted milliseconds. -/
theorem timed_timestamps (last : Option Int) (commits : List Recorded)
    : (timed last commits).map (·.timestamp)
      = (ascending last (commits.map (·.raw))).map fun millis => .utc (1000 * millis) := by
  induction commits generalizing last with
  | nil => rfl
  | cons commit rest ih => exact congrArg (_ :: ·) (ih _)

/-- The commits of a log have the adjusted times of its files. -/
theorem commitsOf_timestamps (tree : Tree) (place : Place) (provider : String)
    : (commitsOf tree place provider).map (·.timestamp)
      = (commitTimes tree place provider).map fun millis => .utc (1000 * millis) := by
  rw [commitsOf, historyOf, History.ofRecorded_commits, timed_timestamps, List.map_map]
  rfl

/-- The commits of a log have just its versions, in order. -/
theorem commitsOf_versions (tree : Tree) (place : Place) (provider : String)
    : (commitsOf tree place provider).map (·.version) = committed tree place :=
  historyOf_versions _

/-- The committed versions are those of the commits. -/
theorem mem_committed_iff (provider : String) {v : Int}
    : v ∈ committed tree place ↔ ∃ commit ∈ commitsOf tree place provider, commit.version = v := by
  rw [← commitsOf_versions tree place provider, List.mem_map]

/-- The version of a commit is one of the log. -/
theorem version_mem_committed {commit : Commit} (member : commit ∈ commitsOf tree place provider)
    : commit.version ∈ committed tree place :=
  (mem_committed_iff provider).mpr ⟨commit, member, rfl⟩

/-- The time of a commit is one of the times of its log. -/
theorem exists_millis_of_mem {commit : Commit} (member : commit ∈ commitsOf tree place provider)
    : ∃ millis ∈ commitTimes tree place provider, commit.timestamp = .utc (1000 * millis) := by
  have isTime := List.mem_map_of_mem (f := (·.timestamp)) member
  rw [commitsOf_timestamps] at isTime
  obtain ⟨millis, isTime, same⟩ := List.mem_map.mp isTime
  exact ⟨millis, isTime, same.symm⟩

/-- Each commit is later than those before it. -/
theorem commitsOf_pairwise (tree : Tree) (place : Place) (provider : String)
    : (commitsOf tree place provider).Pairwise (·.timestamp < ·.timestamp) := by
  rw [← List.pairwise_map, commitsOf_timestamps, List.pairwise_map]
  refine (ascending_pairwise none _).imp fun {a b} (earlier : a < b) => ?_
  show 1000 * a - 0 < 1000 * b - 0
  omega

/-- In a list where each item comes before those after it, any two items are related. -/
theorem eq_or_related {α : Type} {R : α → α → Prop} {items : List α} (sorted : items.Pairwise R)
    {a b : α} (ha : a ∈ items) (hb : b ∈ items)
    : a = b ∨ R a b ∨ R b a := by
  by_cases same : a = b
  · exact Or.inl same
  · have symmetric : Std.Symm fun a b => R a b ∨ R b a := ⟨fun _ _ => Or.symm⟩
    exact Or.inr ((sorted.imp (S := fun a b => R a b ∨ R b a) Or.inl).forall ha hb same)

/-- No two commits of those that get later have the same time. -/
theorem eq_of_timestamp_le {commits : List Commit} {commit other : Commit}
    (sorted : commits.Pairwise (·.timestamp < ·.timestamp)) (member : commit ∈ commits)
    (isOther : other ∈ commits) (notLater : other.timestamp ≤ commit.timestamp)
    (notEarlier : commit.timestamp ≤ other.timestamp)
    : other = commit := by
  rcases eq_or_related sorted isOther member with same | earlier | later
  · exact same
  · exact absurd notEarlier (Timestamp.not_le.mpr earlier)
  · exact absurd notLater (Timestamp.not_le.mpr later)

/-- The first of them is the earliest. -/
theorem head_timestamp_le {commits : List Commit} {commit first : Commit}
    (sorted : commits.Pairwise (·.timestamp < ·.timestamp)) (begins : commits.head? = some first)
    (member : commit ∈ commits)
    : first.timestamp ≤ commit.timestamp := by
  obtain ⟨rest, rfl⟩ := List.head?_eq_some_iff.mp begins
  rcases List.mem_cons.mp member with rfl | inRest
  · exact Int.le_refl commit.timestamp.instant
  · exact Int.le_of_lt ((List.pairwise_cons.mp sorted).1 commit inRest)

/-- (IsPast now inclusive commit) says that a commit is before an instant, or at it if that is
included.
-/
def IsPast (now : Timestamp) : Bool → Commit → Prop
  | true, commit => commit.timestamp ≤ now
  | false, commit => commit.timestamp < now

instance (now : Timestamp) (inclusive : Bool) (commit : Commit)
    : Decidable (IsPast now inclusive commit) :=
  match inclusive with
  | true => inferInstanceAs (Decidable (commit.timestamp ≤ now))
  | false => inferInstanceAs (Decidable (commit.timestamp < now))

/-- What is earlier than a past commit is past as well, inclusive or not. -/
theorem IsPast.of_lt {now : Timestamp} {inclusive : Bool} {commit other : Commit}
    (h : IsPast now inclusive commit) (earlier : other.timestamp < commit.timestamp)
    : IsPast now inclusive other := by
  cases inclusive with
  | true => exact Int.le_trans (Int.le_of_lt earlier) h
  | false => exact Int.lt_trans earlier h

/-- The commits of a history that are past come before those that are not, and the last of them is
active, or else the first commit.
-/
theorem History.exists_split_activeAt {history : History}
    (sorted : history.commits.Pairwise (·.timestamp < ·.timestamp)) (now : Timestamp)
    (inclusive : Bool)
    : ∃ past later,
        history.commits = past ++ later
        ∧ (∀ commit ∈ past, IsPast now inclusive commit)
        ∧ (∀ commit ∈ later, ¬IsPast now inclusive commit)
        ∧ history.activeAt now inclusive = past.getLast?.or history.commits.head? := by
  let isPast (commit : Commit) : Bool := decide (IsPast now inclusive commit)
  have active
      : history.activeAt now inclusive
        = history.commits[(history.commits.takeWhile isPast).length - 1]? := by
    cases inclusive <;> rfl
  refine ⟨history.commits.takeWhile isPast, history.commits.dropWhile isPast,
    List.takeWhile_append_dropWhile.symm, ?_, ?_, ?_⟩
  · intro commit member
    simpa [isPast] using List.mem_takeWhile_imp member
  · intro commit member past
    cases later : history.commits.dropWhile isPast with
    | nil => simp [later] at member
    | cons next rest =>
        have notPast : ¬IsPast now inclusive next := by
          have begins := List.head?_dropWhile_not isPast history.commits
          simpa [later, isPast] using begins
        have inOrder := sorted.sublist (List.dropWhile_sublist isPast)
        rw [later] at member inOrder
        rcases List.mem_cons.mp member with rfl | inRest
        · exact notPast past
        · exact notPast (past.of_lt ((List.pairwise_cons.mp inOrder).1 commit inRest))
  · rw [active]
    rcases List.eq_nil_or_concat' (history.commits.takeWhile isPast) with none | ⟨past, last, ends⟩
    · rw [none, List.head?_eq_getElem?]
      rfl
    · have there : history.commits[past.length]? = some last := by
        rw [← List.takeWhile_append_dropWhile (p := isPast) (l := history.commits), ends]
        simp
      rw [ends, List.length_append, List.length_singleton, Nat.add_sub_cancel, there]
      simp

/-- The commit that is active at an instant is the last one that is past, or else the first. -/
theorem History.exists_activeAt {history : History} {first : Commit} {rest : List Commit}
    (sorted : history.commits.Pairwise (·.timestamp < ·.timestamp))
    (begins : history.commits = first :: rest) (now : Timestamp) (inclusive : Bool)
    : ∃ commit ∈ history.commits,
        history.activeAt now inclusive = some commit
        ∧ ∀ other ∈ history.commits,
            other.timestamp ≤ commit.timestamp ↔ IsPast now inclusive other ∨ other = first := by
  obtain ⟨past, later, split, isPast, notPast, active⟩ :=
    exists_split_activeAt sorted now inclusive
  rw [begins, List.head?_cons] at active
  rcases List.eq_nil_or_concat' past with rfl | ⟨earlier, commit, rfl⟩
  · -- nothing is past, so that the first commit is active
    refine ⟨first, begins ▸ List.mem_cons_self, active, fun other member => ?_⟩
    have afterFirst := (List.pairwise_cons.mp (begins ▸ sorted)).1
    rw [split] at member
    constructor
    · intro upTo
      rw [List.nil_append] at split
      rw [List.nil_append, ← split, begins] at member
      refine Or.inr ((List.mem_cons.mp member).resolve_right fun inRest => ?_)
      exact absurd upTo (Timestamp.not_le.mpr (afterFirst other inRest))
    · rintro (isPast | rfl)
      · exact absurd isPast (notPast other member)
      · exact Int.le_refl other.timestamp.instant
  · rw [List.getLast?_append_cons, List.getLast?_singleton, Option.some_or] at active
    refine ⟨commit, by simp [split], active, fun other member => ?_⟩
    rw [split] at member sorted
    obtain ⟨upToCommit, _, across⟩ := List.pairwise_append.mp sorted
    have before := (List.pairwise_append.mp upToCommit).2.2
    rcases List.mem_append.mp member with isEarlier | isLater
    · refine iff_of_true ?_ (Or.inl (isPast other isEarlier))
      rcases List.mem_append.mp isEarlier with isBefore | same
      · exact Int.le_of_lt (before other isBefore commit (List.mem_singleton_self commit))
      · rw [List.mem_singleton.mp same]
        exact Int.le_refl commit.timestamp.instant
    · refine iff_of_false ?_ ?_
      · exact Timestamp.not_le.mpr (across commit (by simp) other isLater)
      · rintro (past | rfl)
        · exact notPast other isLater past
        · -- the first commit is past, for another one is
          refine notPast other isLater (isPast other ?_)
          rw [begins] at split
          cases earlier with
          | nil => simp [(List.cons.inj split).1]
          | cons head more => simp [(List.cons.inj split).1]

/-- The instant of a commit leads to it. -/
theorem History.activeAt_of_mem {history : History} {commit : Commit}
    (sorted : history.commits.Pairwise (·.timestamp < ·.timestamp))
    (member : commit ∈ history.commits)
    : history.activeAt commit.timestamp true = some commit := by
  obtain ⟨first, rest, begins⟩ := List.exists_cons_of_ne_nil (List.ne_nil_of_mem member)
  obtain ⟨active, isActive, found, le_iff⟩ := exists_activeAt sorted begins commit.timestamp true
  have reached : commit.timestamp ≤ active.timestamp :=
    (le_iff commit member).mpr (Or.inl (Int.le_refl commit.timestamp.instant))
  have notLater : active.timestamp ≤ commit.timestamp := by
    rcases (le_iff active isActive).mp (Int.le_refl active.timestamp.instant) with past | rfl
    · exact past
    · exact head_timestamp_le sorted (begins ▸ List.head?_cons) member
  exact eq_of_timestamp_le sorted member isActive notLater reached ▸ found

-----------------------------------------------------------------------------------------
-- Growth
-----------------------------------------------------------------------------------------

/-- A log that grows keeps the commits that it had. -/
theorem Grows.mem_commitsOf {added : List Int} (h : Grows place before after added)
    {commit : Commit} (member : commit ∈ commitsOf before place provider)
    : commit ∈ commitsOf after place provider := by
  have same : historyOf after place provider (committed before place)
      = historyOf before place provider (committed before place) :=
    historyOf_congr fun v isOld => h.untouched v (h.not_mem isOld)
  rw [commitsOf, ← same] at member
  rw [commitsOf, h.listing, historyOf, List.map_append, History.ofRecorded_append,
    History.foldl_grown_commits]
  exact List.mem_append_left _ member

-----------------------------------------------------------------------------------------
-- Consecutive versions
-----------------------------------------------------------------------------------------

/-- (Consecutive versions) says that versions count up from the first of them without a gap. -/
def Consecutive (versions : List Int) : Prop :=
  ∃ first : Int, versions = (List.range versions.length).map fun (i : Nat) => first + i

instance (versions : List Int) : Decidable (Consecutive versions) :=
  decidable_of_iff
    (versions = (List.range versions.length).map fun (i : Nat) => versions.headD 0 + i)
    (by
      refine ⟨fun range => ⟨_, range⟩, fun ⟨first, range⟩ => ?_⟩
      cases versions with
      | nil => rfl
      | cons v rest =>
          have begins := congrArg List.head? range
          rw [List.length_cons, List.range_succ_eq_map] at begins
          obtain rfl : v = first := by simpa using begins
          exact range)

/-- Consecutive versions increase. -/
theorem Consecutive.pairwise {versions : List Int} (h : Consecutive versions)
    : versions.Pairwise (· < ·) := by
  obtain ⟨first, range⟩ := h
  rw [range, List.pairwise_map]
  exact List.pairwise_lt_range.imp fun below => by omega

/-- Consecutive versions are less far apart than there are of them. -/
theorem Consecutive.lt_add_length {versions : List Int} (h : Consecutive versions) {v w : Int}
    (hv : v ∈ versions) (hw : w ∈ versions)
    : w < v + versions.length := by
  obtain ⟨first, range⟩ := h
  rw [range] at hv hw
  obtain ⟨i, _, rfl⟩ := List.mem_map.mp hv
  obtain ⟨j, inside, rfl⟩ := List.mem_map.mp hw
  have := List.mem_range.mp inside
  omega

/-- Consecutive versions have no gaps. -/
theorem Consecutive.mem_of_between {versions : List Int} (h : Consecutive versions) {u v w : Int}
    (hu : u ∈ versions) (hw : w ∈ versions) (above : u ≤ v) (below : v ≤ w)
    : v ∈ versions := by
  obtain ⟨first, range⟩ := h
  rw [range] at hu hw ⊢
  obtain ⟨i, _, rfl⟩ := List.mem_map.mp hu
  obtain ⟨j, inside, rfl⟩ := List.mem_map.mp hw
  have size := List.mem_range.mp inside
  exact List.mem_map.mpr ⟨(v - first).toNat, List.mem_range.mpr (by omega), by omega⟩

/-- Of two commits of a log, the one with the higher version is later. -/
theorem lt_iff_of_mem_commitsOf (consecutive : Consecutive (committed tree place)) {c d : Commit}
    (hc : c ∈ commitsOf tree place provider) (hd : d ∈ commitsOf tree place provider)
    : c.version < d.version ↔ c.timestamp < d.timestamp := by
  have byVersion : (commitsOf tree place provider).Pairwise (·.version < ·.version) := by
    rw [← List.pairwise_map, commitsOf_versions]
    exact consecutive.pairwise
  have byTime := commitsOf_pairwise tree place provider
  rcases eq_or_related (byVersion.and byTime) hc hd with rfl | ⟨lower, earlier⟩ | ⟨higher, later⟩
  · exact iff_of_false (Int.lt_irrefl _) (Int.lt_irrefl _)
  · exact iff_of_true lower earlier
  · exact iff_of_false (Int.not_lt.mpr (Int.le_of_lt higher))
      (Int.not_lt.mpr (Int.le_of_lt later))

/-- A version of a log has one commit. -/
theorem eq_of_version_eq (consecutive : Consecutive (committed tree place)) {c d : Commit}
    (hc : c ∈ commitsOf tree place provider) (hd : d ∈ commitsOf tree place provider)
    (same : c.version = d.version)
    : c = d := by
  have distinct : ((commitsOf tree place provider).map (·.version)).Nodup := by
    rw [commitsOf_versions]
    exact consecutive.pairwise.imp fun {v w} (below : v < w) => Int.ne_of_lt below
  exact List.inj_on_of_nodup_map distinct hc hd same

/-- The commit of a version of a log is found under its version. -/
theorem commitAt_of_mem_commitsOf (consecutive : Consecutive (committed tree place))
    {commit : Commit} (member : commit ∈ commitsOf tree place provider)
    : (historyOf tree place provider (committed tree place)).commitAt commit.version
      = .ok commit := by
  have indexed : (historyOf tree place provider (committed tree place)).Indexed :=
    History.indexed_ofRecorded _
  obtain ⟨found, there, same, isFound⟩ := indexed.commitAt_of_mem member
  rw [isFound, eq_of_version_eq consecutive there member same]

/-- What is found under a version is the commit of that version. -/
theorem mem_commitsOf_of_commitAt {version : Int} {commit : Commit}
    (found : historyAt tree place provider >>= (·.commitAt version) = .ok commit)
    : commit ∈ commitsOf tree place provider ∧ commit.version = version := by
  cases listed : listVersions tree place with
  | error failure => simp [historyAt, listed, bind, Except.bind] at found
  | ok all =>
      rw [historyAt_of_listVersions provider listed] at found
      replace found : (historyOf tree place provider all).commitAt version = .ok commit := found
      rw [commitsOf, committed_of_listVersions listed]
      have indexed : (historyOf tree place provider all).Indexed := History.indexed_ofRecorded _
      unfold History.commitAt at found
      split at found
      case h_1 => cases found
      case h_2 position isPosition =>
        obtain ⟨there, isThere, same⟩ := indexed.located isPosition
        rw [isThere] at found
        cases found
        exact ⟨List.mem_of_getElem? isThere, same⟩

/-- A log with a commit can be listed. -/
theorem listVersions_of_mem {commit : Commit} (member : commit ∈ commitsOf tree place provider)
    : listVersions tree place = .ok (committed tree place) :=
  listVersions_of_mem_committed (version_mem_committed member)

/-- Where there is a commit, the history of the whole log is the one that is asked. -/
theorem historyAt_of_mem {commit : Commit} (member : commit ∈ commitsOf tree place provider)
    : historyAt tree place provider
      = .ok (historyOf tree place provider (committed tree place)) :=
  historyAt_of_listVersions provider (listVersions_of_mem member)

/-- The latest version is the last of those that are listed. -/
theorem getLast?_committed {v : Int} (told : latestVersion tree place = .ok v)
    : (committed tree place).getLast? = some v := by
  obtain ⟨all, listed, ends⟩ := bind_eq_ok.mp told
  rw [committed_of_listVersions listed]
  split at ends
  case h_1 last found =>
    cases ends
    exact found
  case h_2 => cases ends

/-- The latest version of a log with a commit is that of its last commit. -/
theorem exists_latest_of_mem {commit : Commit} (member : commit ∈ commitsOf tree place provider)
    : ∃ latest ∈ commitsOf tree place provider,
        latestVersion tree place = .ok latest.version
        ∧ ∀ c ∈ commitsOf tree place provider, c.version ≤ latest.version := by
  obtain ⟨latest, ends⟩ := Option.ne_none_iff_exists'.mp
    (mt List.getLast?_eq_none_iff.mp (List.ne_nil_of_mem member))
  have versions := commitsOf_versions tree place provider
  have last : (committed tree place).getLast? = some latest.version := by
    rw [← versions, List.getLast?_map, ends, Option.map_some]
  refine ⟨latest, List.mem_of_getLast? ends, ?_, fun c isCommit => ?_⟩
  · simp only [latestVersion, listVersions_of_mem member, bind, Except.bind, last]
    rfl
  · obtain ⟨earlier, split⟩ := List.getLast?_eq_some_iff.mp last
    have sorted := committed_sorted tree place
    have isVersion := version_mem_committed isCommit
    rw [split] at sorted isVersion
    rcases List.mem_append.mp isVersion with before | same
    · exact (List.pairwise_append.mp sorted).2.2 _ before _ (List.mem_singleton_self _)
    · exact Int.le_of_eq (List.mem_singleton.mp same)

end DeltaFeed.Log
