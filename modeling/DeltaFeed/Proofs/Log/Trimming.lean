import DeltaFeed.Proofs.Log.Instants

/-! The times of commits in a log that is trimmed. The time of a commit is the one that its file
tells, or else one millisecond after another commit; so a commit may become earlier when files
before it are deleted, and it never becomes later.
-/

namespace DeltaFeed.Log

open Store (Tree)
open Time (Timestamp)

-----------------------------------------------------------------------------------------
-- How times are adjusted
-----------------------------------------------------------------------------------------

/-- A commit after a last time has the time that its file tells, unless that time is past: then it
comes one millisecond after the last time or after another commit.
-/
theorem exists_adjusted_of_mem_timed {last : Option Int} {commits : List Recorded}
    {commit : Commit} (member : commit ∈ timed last commits)
    : ∃ given ∈ commits, ∃ millis : Int,
        commit = { version := given.version, timestamp := .utc (1000 * millis) }
        ∧ given.raw ≤ millis
        ∧ (millis = given.raw
          ∨ some (millis - 1) = last
          ∨ ∃ other ∈ timed last commits, other.timestamp = .utc (1000 * (millis - 1))) := by
  induction commits generalizing last with
  | nil => cases member
  | cons first rest ih =>
      rcases List.mem_cons.mp member with isFirst | later
      · refine ⟨first, List.mem_cons_self, after last first.raw, isFirst, ?_⟩
        cases last with
        | none => exact ⟨Int.le_refl _, Or.inl rfl⟩
        | some millis =>
            unfold after
            dsimp only
            split
            case isTrue past => exact ⟨by omega, Or.inr (Or.inl (by congr 1; omega))⟩
            case isFalse => exact ⟨Int.le_refl _, Or.inl rfl⟩
      · obtain ⟨given, isGiven, millis, same, from_, reason⟩ := ih later
        refine ⟨given, List.mem_cons_of_mem _ isGiven, millis, same, from_, ?_⟩
        refine reason.imp_right fun bumped => Or.inr ?_
        rcases bumped with afterFirst | ⟨other, isOther, before⟩
        · refine ⟨_, List.mem_cons_self, ?_⟩
          rw [Option.some.inj afterFirst]
        · exact ⟨other, List.mem_cons_of_mem _ isOther, before⟩

variable {tree before after : Tree} {place : Place} {provider : String} {first : Int}
  {commit kept next : Commit}

/-- The time of a commit in milliseconds is the one that its file tells, or a later one that is one
millisecond after another commit.
-/
theorem exists_adjusted (isCommit : commit ∈ commitsOf tree place provider)
    : ∃ millis : Int,
        commit.timestamp = .utc (1000 * millis)
        ∧ (recorded tree place provider commit.version).raw ≤ millis
        ∧ (millis = (recorded tree place provider commit.version).raw
          ∨ ∃ other ∈ commitsOf tree place provider,
              other.timestamp = .utc (1000 * (millis - 1))) := by
  rw [commitsOf, historyOf, History.ofRecorded_commits] at isCommit ⊢
  obtain ⟨given, isGiven, millis, rfl, from_, reason⟩ := exists_adjusted_of_mem_timed isCommit
  obtain ⟨v, _, rfl⟩ := List.mem_map.mp isGiven
  refine ⟨millis, rfl, from_, ?_⟩
  rcases reason with unchanged | none | bumped
  · exact Or.inl unchanged
  · cases none
  · exact Or.inr bumped

theorem utc_millis_le_iff {a b : Int}
    : Timestamp.utc (1000 * a) ≤ .utc (1000 * b) ↔ a ≤ b := by
  show 1000 * a - 0 ≤ 1000 * b - 0 ↔ a ≤ b
  omega

theorem utc_millis_lt_iff {a b : Int}
    : Timestamp.utc (1000 * a) < .utc (1000 * b) ↔ a < b := by
  show 1000 * a - 0 < 1000 * b - 0 ↔ a < b
  omega

/-- The time of a commit follows from that of the commit before it and from what its file tells. -/
theorem timestamp_next {now : Int} (consecutive : Consecutive (committed tree place))
    (isCommit : commit ∈ commitsOf tree place provider)
    (atNow : commit.timestamp = .utc (1000 * now))
    (isNext : next ∈ commitsOf tree place provider) (follows : next.version = commit.version + 1)
    : next.timestamp
      = .utc (1000 * Log.after (some now) (recorded tree place provider next.version).raw) := by
  obtain ⟨late, atLate, told, reason⟩ := exists_adjusted isNext
  have isLater : commit.timestamp < next.timestamp :=
    (lt_iff_of_mem_commitsOf consecutive isCommit isNext).mp (by omega)
  rw [atNow, atLate, utc_millis_lt_iff] at isLater
  have least : late = (recorded tree place provider next.version).raw ∨ late ≤ now + 1 := by
    refine reason.imp_right ?_
    rintro ⟨other, isOther, atOther⟩
    -- the commit that the next one was moved behind does not come after the one before it
    have beforeNext : other.timestamp < next.timestamp := by
      rw [atOther, atLate, utc_millis_lt_iff]
      omega
    have below := (lt_iff_of_mem_commitsOf consecutive isOther isNext).mpr beforeNext
    have upTo : other.timestamp ≤ commit.timestamp := by
      apply Int.not_lt.mp
      intro afterThis
      have above := (lt_iff_of_mem_commitsOf consecutive isCommit isOther).mpr afterThis
      omega
    rw [atOther, atNow, utc_millis_le_iff] at upTo
    omega
  have ⟨afterNow, fromRaw⟩ := after_le_iff.mp (Int.le_refl
    (Log.after (some now) (recorded tree place provider next.version).raw))
  rw [atLate, Int.le_antisymm (by omega) (after_le_iff.mpr ⟨isLater, told⟩)]

-----------------------------------------------------------------------------------------
-- Logs that are trimmed
-----------------------------------------------------------------------------------------

theorem Consecutive.of_suffix {versions ends : List Int} (isSuffix : ends <:+ versions)
    (h : Consecutive versions)
    : Consecutive ends := by
  obtain ⟨start, rfl⟩ := isSuffix
  obtain ⟨first, range⟩ := h
  refine ⟨first + start.length, ?_⟩
  rw [List.length_append, List.range_add, List.map_append] at range
  refine (List.append_inj range (by simp)).2.trans ?_
  rw [List.map_map]
  refine List.map_congr_left fun i _ => ?_
  simp only [Function.comp_apply]
  omega

/-- What remains of a log is its end. -/
theorem Trims.suffix (consecutive : Consecutive (committed before place))
    (h : Trims place before after first)
    : committed after place <:+ committed before place := by
  obtain ⟨deleted, rest, split⟩ := List.append_of_mem h.remains
  have sorted := consecutive.pairwise
  rw [split] at sorted
  obtain ⟨_, fromFirst, across⟩ := List.pairwise_append.mp sorted
  have none : deleted.filter (first ≤ ·) = [] := by
    apply List.filter_eq_nil_iff.mpr
    intro v member
    have := across v member first List.mem_cons_self
    simp only [decide_eq_true_eq]
    omega
  have all : (first :: rest).filter (first ≤ ·) = first :: rest := by
    apply List.filter_eq_self.mpr
    intro v member
    rcases List.mem_cons.mp member with rfl | later
    · simp
    · have := (List.pairwise_cons.mp fromFirst).1 v later
      simp only [decide_eq_true_eq]
      omega
  rw [h.listing, split, List.filter_append, none, all]
  exact ⟨deleted, rfl⟩

theorem Trims.consecutive (h : Trims place before after first)
    (consecutive : Consecutive (committed before place))
    : Consecutive (committed after place) :=
  consecutive.of_suffix (h.suffix consecutive)

theorem Trims.mem_committed (h : Trims place before after first) {v : Int}
    : v ∈ committed after place ↔ v ∈ committed before place ∧ first ≤ v := by
  rw [h.listing, List.mem_filter, decide_eq_true_iff]

/-- The versions that remain have commits with and without the files that were deleted. -/
theorem Trims.exists_kept (h : Trims place before after first)
    (isCommit : commit ∈ commitsOf before place provider) (stays : first ≤ commit.version)
    : ∃ kept ∈ commitsOf after place provider, kept.version = commit.version := by
  have remains := h.mem_committed.mpr ⟨version_mem_committed isCommit, stays⟩
  exact (mem_committed_iff provider).mp remains

theorem Trims.exists_before (h : Trims place before after first)
    (isKept : kept ∈ commitsOf after place provider)
    : first ≤ kept.version
      ∧ ∃ commit ∈ commitsOf before place provider, commit.version = kept.version := by
  have ⟨wasThere, stays⟩ := h.mem_committed.mp (version_mem_committed isKept)
  exact ⟨stays, (mem_committed_iff provider).mp wasThere⟩

/-- The file of a version that remains tells the same time. -/
theorem Trims.recorded_raw (h : Trims place before after first) {v : Int} (stays : first ≤ v)
    : (recorded after place provider v).raw = (recorded before place provider v).raw := by
  rw [recorded_congr (h.untouched v fun _ => stays)]

/-- No commit becomes later when a log is trimmed. -/
theorem Trims.timestamp_le (h : Trims place before after first)
    (consecutive : Consecutive (committed before place))
    (isCommit : commit ∈ commitsOf before place provider)
    (isKept : kept ∈ commitsOf after place provider) (same : kept.version = commit.version)
    : kept.timestamp ≤ commit.timestamp := by
  obtain ⟨n, isVersion⟩ : ∃ n : Nat, kept.version = n :=
    Int.eq_ofNat_of_zero_le (committed_nonneg (version_mem_committed isKept))
  -- the commit that a time was moved behind has a lower version
  induction n using Nat.strong_induction_on generalizing kept commit with
  | _ n ih =>
    obtain ⟨late, atLate, told, _⟩ := exists_adjusted isCommit
    obtain ⟨millis, atMillis, _, reason⟩ := exists_adjusted isKept
    have stays := (h.exists_before isKept).1
    rw [atLate, atMillis, utc_millis_le_iff]
    rcases reason with unmoved | ⟨other, isOther, atOther⟩
    · rw [unmoved, h.recorded_raw stays, same]
      exact told
    · have earlier : other.timestamp < kept.timestamp := by
        rw [atOther, atMillis, utc_millis_lt_iff]
        omega
      have lower :=
        (lt_iff_of_mem_commitsOf (h.consecutive consecutive) isOther isKept).mpr earlier
      obtain ⟨_, old, isOld, sameOld⟩ := h.exists_before isOther
      have oldNotLater : other.timestamp ≤ old.timestamp := by
        have nonneg := committed_nonneg (version_mem_committed isOther)
        exact ih other.version.toNat (by omega) isOld isOther sameOld.symm (by omega)
      have oldEarlier : old.timestamp < commit.timestamp :=
        (lt_iff_of_mem_commitsOf consecutive isOld isCommit).mp (by omega)
      have between := Int.lt_of_le_of_lt oldNotLater oldEarlier
      rw [atOther, atLate] at between
      have := utc_millis_lt_iff.mp between
      omega

/-- The commit that came next remains after the old time of a commit exactly if it keeps its own.
-/
theorem Trims.lt_next_iff (h : Trims place before after first)
    (consecutive : Consecutive (committed before place))
    (isCommit : commit ∈ commitsOf before place provider)
    (isNext : next ∈ commitsOf before place provider) (follows : next.version = commit.version + 1)
    (isKept : kept ∈ commitsOf after place provider) (same : kept.version = next.version)
    : commit.timestamp < kept.timestamp ↔ kept = next := by
  obtain ⟨now, atNow, _⟩ := exists_adjusted isCommit
  have atNext := timestamp_next consecutive isCommit atNow isNext follows
  constructor
  · intro isLater
    obtain ⟨millis, atMillis, told, _⟩ := exists_adjusted isKept
    have notLater := h.timestamp_le consecutive isNext isKept same
    rw [h.recorded_raw (h.exists_before isKept).1, same] at told
    rw [atNow, atMillis, utc_millis_lt_iff] at isLater
    rw [atNext, atMillis, utc_millis_le_iff] at notLater
    rw [Int.le_antisymm (after_le_iff.mpr ⟨isLater, told⟩) notLater, ← atMillis] at atNext
    exact congrArg₂ Commit.mk same atNext.symm
  · rintro rfl
    exact (lt_iff_of_mem_commitsOf consecutive isCommit isNext).mp (by omega)

end DeltaFeed.Log
