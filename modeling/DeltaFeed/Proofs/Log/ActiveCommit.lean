import DeltaFeed.Proofs.Log.Instants

/-! Which commit an instant leads to. It is the last one that is past, or else the first, so that a
later instant leads to no earlier commit; and whether a commit at the instant itself counts makes a
difference of one commit.
-/

namespace DeltaFeed.Log

open Store (Tree Path)
open Time (Timestamp)

-----------------------------------------------------------------------------------------
-- Commits in order
-----------------------------------------------------------------------------------------

/-- (InOrder commits) says that each commit is later than those before it, and that its version is
not lower.
-/
def InOrder (commits : List Commit) : Prop :=
  commits.Pairwise fun earlier later =>
    earlier.version ≤ later.version ∧ earlier.timestamp < later.timestamp

theorem inOrder_commitsOf (tree : Tree) (place : Place) (provider : String)
    : InOrder (commitsOf tree place provider) := by
  have byVersion : (commitsOf tree place provider).Pairwise (·.version ≤ ·.version) := by
    rw [← List.pairwise_map, commitsOf_versions]
    exact committed_sorted tree place
  exact byVersion.and (commitsOf_pairwise tree place provider)

variable {commits : List Commit} {commit other first : Commit} {time : Timestamp}
  {inclusive : Bool}

/-- A commit that is not later than another has no higher version. -/
theorem InOrder.version_le (sorted : InOrder commits) (member : commit ∈ commits)
    (isOther : other ∈ commits) (notLater : other.timestamp ≤ commit.timestamp)
    : other.version ≤ commit.version := by
  rcases eq_or_related sorted isOther member with rfl | ⟨lower, _⟩ | ⟨_, earlier⟩
  · exact Int.le_refl _
  · exact lower
  · exact absurd notLater (Timestamp.not_le.mpr earlier)

theorem InOrder.byTime (sorted : InOrder commits)
    : commits.Pairwise (·.timestamp < ·.timestamp) :=
  sorted.imp And.right

/-- Two commits with none between them stand next to each other. -/
theorem InOrder.exists_adjacent (sorted : InOrder commits) (member : commit ∈ commits)
    (isOther : other ∈ commits) (earlier : commit.timestamp < other.timestamp)
    (between
      : ∀ c ∈ commits, c.timestamp < other.timestamp → c.timestamp ≤ commit.timestamp)
    : ∃ before after, commits = before ++ commit :: other :: after := by
  obtain ⟨before, after, rfl⟩ := List.append_of_mem member
  obtain ⟨_, fromCommit, across⟩ := List.pairwise_append.mp sorted
  have afterCommit := (List.pairwise_cons.mp fromCommit).1
  have isAfter : other ∈ after := by
    rcases List.mem_append.mp isOther with isBefore | same | isAfter
    · have later := (across other isBefore commit List.mem_cons_self).2
      exact absurd (Int.lt_trans earlier later) (Int.lt_irrefl commit.timestamp.instant)
    · exact absurd earlier (Int.lt_irrefl commit.timestamp.instant)
    · assumption
  cases after with
  | nil => cases isAfter
  | cons next after =>
      rcases List.mem_cons.mp isAfter with rfl | further
      · exact ⟨before, after, rfl⟩
      · -- the next commit would be between the two
        have afterNext := (List.pairwise_cons.mp (List.pairwise_cons.mp fromCommit).2).1
        have upTo := between next (by simp) (afterNext other further).2
        exact absurd upTo (Timestamp.not_le.mpr (afterCommit next List.mem_cons_self).2)

-----------------------------------------------------------------------------------------
-- The commit that an instant leads to
-----------------------------------------------------------------------------------------

/-- (Resolves commits time inclusive commit) says that an instant leads to a commit: it is the last
of those that are past, with the greatest version of them, or the earliest of all if none is past.
-/
structure Resolves (commits : List Commit) (time : Timestamp) (inclusive : Bool)
    (commit : Commit)
    : Prop where
  isCommit : commit ∈ commits
  last
    : ∀ other ∈ commits,
        IsPast time inclusive other
        → IsPast time inclusive commit
          ∧ other.version ≤ commit.version
          ∧ other.timestamp ≤ commit.timestamp
  earliest
    : (∀ other ∈ commits, ¬IsPast time inclusive other) → commits.head? = some commit

/-- An instant counts as its reading in UTC. -/
theorem isPast_utc_instant (time : Timestamp) (inclusive : Bool) (commit : Commit)
    : IsPast (.utc time.instant) inclusive commit ↔ IsPast time inclusive commit := by
  have same : (Timestamp.utc time.instant).instant = time.instant := Int.sub_zero _
  cases inclusive with
  | true => exact iff_of_eq (congrArg (commit.timestamp.instant ≤ ·) same)
  | false => exact iff_of_eq (congrArg (commit.timestamp.instant < ·) same)

theorem IsPast.inclusive_of_exclusive (h : IsPast time false commit)
    : IsPast time true commit :=
  Int.le_of_lt h

/-- What is past at an instant is past at a later one. -/
theorem IsPast.mono {later : Timestamp} (h : IsPast time inclusive commit) (le : time ≤ later)
    : IsPast later inclusive commit := by
  cases inclusive with
  | true => exact Int.le_trans h le
  | false => exact Int.lt_of_lt_of_le h le

/-- In a log with a commit, every instant leads to one, which is active then. -/
theorem exists_resolves {history : History} (sorted : InOrder history.commits)
    (nonempty : history.commits ≠ []) (time : Timestamp) (inclusive : Bool)
    : ∃ commit,
        history.activeAt (.utc time.instant) inclusive = some commit
        ∧ Resolves history.commits time inclusive commit := by
  obtain ⟨first, rest, begins⟩ := List.exists_cons_of_ne_nil nonempty
  have head : history.commits.head? = some first := by rw [begins, List.head?_cons]
  obtain ⟨commit, member, active, le_iff⟩ :=
    History.exists_activeAt sorted.byTime begins (.utc time.instant) inclusive
  simp only [isPast_utc_instant] at le_iff
  have self := (le_iff commit member).mp (Int.le_refl commit.timestamp.instant)
  refine ⟨commit, active, member, fun other isOther past => ?_, fun nonePast => ?_⟩
  · have upTo : other.timestamp ≤ commit.timestamp := (le_iff other isOther).mpr (Or.inl past)
    refine ⟨?_, sorted.version_le member isOther upTo, upTo⟩
    rcases self with isPast | rfl
    · exact isPast
    · have fromCommit : commit.timestamp ≤ other.timestamp :=
        head_timestamp_le sorted.byTime head isOther
      exact eq_of_timestamp_le sorted.byTime member isOther upTo fromCommit ▸ past
  · exact self.resolve_left (nonePast commit member) ▸ head

/-- Either the commit that an instant leads to is past, or none is and it is the earliest. -/
theorem Resolves.isPast_or (h : Resolves commits time inclusive commit)
    : IsPast time inclusive commit
      ∨ (∀ other ∈ commits, ¬IsPast time inclusive other) ∧ commits.head? = some commit := by
  by_cases somePast : ∃ other ∈ commits, IsPast time inclusive other
  · obtain ⟨other, isOther, past⟩ := somePast
    exact Or.inl (h.last other isOther past).1
  · have nonePast : ∀ other ∈ commits, ¬IsPast time inclusive other := fun other isOther past =>
      somePast ⟨other, isOther, past⟩
    exact Or.inr ⟨nonePast, h.earliest nonePast⟩

/-- A later instant leads to no earlier commit. -/
theorem Resolves.mono {later : Timestamp} (sorted : InOrder commits)
    (h : Resolves commits time inclusive commit) (h' : Resolves commits later inclusive other)
    (le : time ≤ later)
    : commit.version ≤ other.version := by
  rcases h.isPast_or with past | ⟨_, isFirst⟩
  · exact (h'.last commit h.isCommit (past.mono le)).2.1
  · have notLater : commit.timestamp ≤ other.timestamp :=
      head_timestamp_le sorted.byTime isFirst h'.isCommit
    exact sorted.version_le h'.isCommit h.isCommit notLater

-----------------------------------------------------------------------------------------
-- Commits at the instant itself
-----------------------------------------------------------------------------------------

section

variable {upTo : Commit}

/-- An instant that is the time of a commit leads to it, if that counts. -/
theorem Resolves.eq_of_instant_eq (sorted : InOrder commits)
    (h : Resolves commits time true upTo) (isOther : other ∈ commits)
    (now : other.timestamp.instant = time.instant)
    : upTo = other := by
  obtain ⟨past, _, fromOther⟩ := h.last other isOther (Int.le_of_eq now)
  have notLater : upTo.timestamp ≤ other.timestamp := Int.le_trans past (Int.le_of_eq now.symm)
  exact eq_of_timestamp_le sorted.byTime isOther h.isCommit notLater fromOther

/-- If it does not count, then the instant leads to the commit just before that one. -/
theorem Resolves.adjacent (sorted : InOrder commits) (h : Resolves commits time false commit)
    (notFirst : other ∈ commits.tail) (now : other.timestamp.instant = time.instant)
    : commit.timestamp < other.timestamp
      ∧ ∃ before after, commits = before ++ commit :: other :: after := by
  have isOther : other ∈ commits := List.mem_of_mem_tail notFirst
  have before_iff (c : Commit) : c.timestamp < other.timestamp ↔ IsPast time false c := by
    show c.timestamp.instant < other.timestamp.instant ↔ c.timestamp.instant < time.instant
    rw [now]
  have earlier : commit.timestamp < other.timestamp := by
    cases commits with
    | nil => cases notFirst
    | cons first rest =>
        have firstPast := ((List.pairwise_cons.mp sorted).1 other notFirst).2
        exact (before_iff commit).mpr
          (h.last first List.mem_cons_self ((before_iff first).mp firstPast)).1
  refine ⟨earlier, sorted.exists_adjacent h.isCommit isOther earlier fun c isC below => ?_⟩
  exact (h.last c isC ((before_iff c).mp below)).2.2

/-- If it makes a difference whether the instant itself counts, then it is the time of the commit
that it leads to, which is not the earliest.
-/
theorem Resolves.instant_eq_of_ne (sorted : InOrder commits)
    (h : Resolves commits time true upTo) (h' : Resolves commits time false commit)
    (differ : upTo ≠ commit)
    : upTo ∈ commits.tail ∧ upTo.timestamp.instant = time.instant := by
  have notBefore : ¬IsPast time false upTo := by
    intro before
    obtain ⟨past, _, fromUpTo⟩ := h'.last upTo h.isCommit before
    have notLater := (h.last commit h'.isCommit past.inclusive_of_exclusive).2.2
    exact differ (eq_of_timestamp_le sorted.byTime h'.isCommit h.isCommit fromUpTo notLater)
  have notFirst : commits.head? ≠ some upTo := by
    intro isFirst
    rcases h'.isPast_or with past | ⟨_, isFirst'⟩
    · have fromUpTo : upTo.timestamp ≤ commit.timestamp :=
        head_timestamp_le sorted.byTime isFirst h'.isCommit
      exact notBefore (Int.lt_of_le_of_lt fromUpTo past)
    · exact differ (Option.some.inj (isFirst.symm.trans isFirst'))
  have reached : IsPast time true upTo := h.isPast_or.resolve_right fun none => notFirst none.2
  refine ⟨?_, Int.le_antisymm reached (Int.not_lt.mp notBefore)⟩
  have member := h.isCommit
  cases commits with
  | nil => cases member
  | cons first rest =>
      exact (List.mem_cons.mp member).resolve_left fun same => notFirst (same ▸ rfl)

end

-----------------------------------------------------------------------------------------
-- The answers of a log
-----------------------------------------------------------------------------------------

/-- The history of a log that can be listed is made of its commits, of which there is one. -/
theorem exists_historyAt {tree : Tree} {place : Place} {versions : List Int} (provider : String)
    (listed : listVersions tree place = .ok versions)
    : ∃ history,
        historyAt tree place provider = .ok history
        ∧ history.commits.map (·.version) = versions
        ∧ InOrder history.commits
        ∧ history.commits ≠ [] := by
  have same : (historyOf tree place provider versions).commits.map (·.version) = versions :=
    historyOf_versions versions
  refine ⟨_, historyAt_of_listVersions provider listed, same, ?_, fun none => ?_⟩
  · have sorted := inOrder_commitsOf tree place provider
    rwa [commitsOf, committed_of_listVersions listed] at sorted
  · rw [none, List.map_nil] at same
    exact listVersions_ne_nil listed same.symm

/-- Every log that can be listed resolves each representable instant, on any clock, to the same
commit: the last one that is past, or else the earliest. A later instant resolves to no earlier
commit; and whether a commit at the instant itself counts makes a difference exactly if it is the
time of a commit other than the earliest, by one commit.
-/
theorem activeCommit_resolves {settings : Settings} {base : Path} {tree : Tree}
    {versions : List Int}
    (sound : SoundLog tree (.ofBase settings base) settings.defaultProvider)
    (listed : listVersions tree (.ofBase settings base) = .ok versions)
    : ∃ (commits : List Commit) (resolved : Timestamp → Bool → Commit),
        commits.map (·.version) = versions
        ∧ InOrder commits
        ∧ (∀ log,
            Follows settings base tree log
            → ((CommitLog.commits tree).run log).result = .ok commits
              ∧ ∀ time inclusive,
                  Time.Representable time.instant
                  → ((CommitLog.activeCommit tree time inclusive).run log).result
                    = .ok (resolved time inclusive))
        ∧ (∀ time inclusive, Resolves commits time inclusive (resolved time inclusive))
        ∧ (∀ time later inclusive,
            time ≤ later → (resolved time inclusive).version ≤ (resolved later inclusive).version)
        ∧ ∀ time,
            (resolved time true ≠ resolved time false
              ↔ ∃ other ∈ commits.tail, other.timestamp.instant = time.instant)
            ∧ (resolved time true ≠ resolved time false
              → ∃ before after,
                  commits = before ++ resolved time false :: resolved time true :: after) := by
  obtain ⟨history, told, versions, sorted, nonempty⟩ :=
    exists_historyAt settings.defaultProvider listed
  choose resolved active resolves using exists_resolves sorted nonempty
  refine ⟨history.commits, resolved, versions, sorted, ?_, resolves, ?_, fun time => ?_⟩
  · rintro log ⟨gone, below, agrees⟩
    constructor
    · rw [(CommitLog.commits_yields below.apart sound agrees).result_eq, told]
      rfl
    · intro time inclusive representable
      have inUtc : time.toUtc = .ok (.utc time.instant) := if_pos representable
      rw [(CommitLog.activeCommit_yields below.apart sound agrees time inclusive).result_eq,
        inUtc, told]
      show activeIn history (.utc time.instant) inclusive = .ok (resolved time inclusive)
      rw [activeIn, active]
  · intro time later inclusive le
    exact (resolves time inclusive).mono sorted (resolves later inclusive) le
  · have atInstant
        : resolved time true ≠ resolved time false
          → resolved time true ∈ history.commits.tail
            ∧ (resolved time true).timestamp.instant = time.instant :=
      (resolves time true).instant_eq_of_ne sorted (resolves time false)
    refine ⟨⟨fun differ => ⟨_, atInstant differ⟩, ?_⟩, fun differ => ?_⟩
    · rintro ⟨other, notFirst, now⟩ same
      have isOther : other ∈ history.commits := List.mem_of_mem_tail notFirst
      obtain ⟨earlier, _⟩ := (resolves time false).adjacent sorted notFirst now
      rw [← same, (resolves time true).eq_of_instant_eq sorted isOther now] at earlier
      exact Int.lt_irrefl other.timestamp.instant earlier
    · obtain ⟨notFirst, now⟩ := atInstant differ
      exact ((resolves time false).adjacent sorted notFirst now).2

/-- A log of two empty files. The clock of the second one is behind. -/
def sampleEmpty : Tree :=
  storeOf (filesOf [(0, commitFile "" 1700000000000), (1, commitFile "" 1600000000000)])

/-- The instant of the second commit, on a clock that is five hours behind UTC. -/
def sampleInstant : Timestamp :=
  { wall := 1699982000001000, offset := some (-18000000000) }

theorem activeCommit_resolves_sampleEmpty
    : ∃ (commits : List Commit) (resolved : Bool → Commit),
        commits.map (·.version) = [0, 1]
        ∧ (∀ inclusive,
            ((CommitLog.activeCommit sampleEmpty sampleInstant inclusive).run
                (.ofBase {} topPlace.base)).result
              = .ok (resolved inclusive))
        ∧ Resolves commits sampleInstant true (resolved true)
        ∧ resolved true ≠ resolved false
        ∧ ∃ before after, commits = before ++ resolved false :: resolved true :: after := by
  have listed : listVersions sampleEmpty (.ofBase {} topPlace.base) = .ok [0, 1] := by
    decide +kernel
  have sound
      : SoundLog sampleEmpty (.ofBase {} topPlace.base) (Settings.defaultProvider {}) := by
    decide +kernel
  obtain ⟨commits, resolved, versions, _, answers, resolves, _, difference⟩ :=
    activeCommit_resolves sound listed
  obtain ⟨isAnswer, active⟩ := answers _ (follows_ofBase {} topPlace.base sampleEmpty)
  have times : commits.tail.map (·.timestamp.instant) = [sampleInstant.instant] := by
    have computed
        : ((CommitLog.commits sampleEmpty).run (.ofBase {} topPlace.base)).result.map
            (·.tail.map (·.timestamp.instant))
          = .ok [sampleInstant.instant] := by
      decide +kernel
    rw [isAnswer] at computed
    exact Except.ok.inj computed
  have second : sampleInstant.instant ∈ commits.tail.map (·.timestamp.instant) := by
    rw [times]
    exact List.mem_singleton_self _
  have differ := (difference sampleInstant).1.mpr (List.mem_map.mp second)
  exact ⟨commits, resolved sampleInstant, versions,
    fun inclusive => active sampleInstant inclusive (by decide), resolves sampleInstant true,
    differ, (difference sampleInstant).2 differ⟩

end DeltaFeed.Log
