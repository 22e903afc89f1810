import DeltaFeed.Proofs.Log.CachedReading
import DeltaFeed.Proofs.Log.Failures

/-! Reads that fail part of the way. A log takes in one version after the other and stops at the
first that cannot be taken in as a whole. It goes on to answer like a log that is newly opened
exactly if it stops before anything of that version is taken in.
-/

namespace DeltaFeed.Log

open Store (Tree Path)

-----------------------------------------------------------------------------------------
-- Consistent histories
-----------------------------------------------------------------------------------------

/-- A history is consistent if it has one time for each commit, its positions lead to its commits
and to nothing else, and it has the metadata of each version that records any.
-/
structure History.Consistent (history : History) : Prop where
  timed : history.commits.length = history.millis.length
  indexed : history.Indexed
  recorded : ∀ v ∈ history.metadataVersions, (history.metadata.lookup v).isSome

variable {tree : Tree} {place : Place} {provider : String} {history : History}
  {log : CommitLog} {v : Int}

/-- A history stays consistent when a commit is taken in as a whole. -/
theorem History.Consistent.grown (h : history.Consistent) (commit : Recorded)
    : (history.grown commit).Consistent where
  timed := by simp [h.timed]
  indexed := h.indexed.grown commit
  recorded := by
    intro v member
    rw [grown_metadataVersions] at member
    rw [grown_metadata]
    split
    case isFalse other =>
      rcases List.mem_append.mp member with earlier | same
      · exact h.recorded v earlier
      · exact absurd (List.eq_of_mem_replicate same) other
    case isTrue same =>
      cases last : commit.metadata.getLast? with
      | some metadata => rfl
      | none =>
          rw [List.getLast?_eq_none_iff.mp last] at member
          exact h.recorded v (by simpa using member)

/-- The history of any versions is consistent, by induction on their commits. -/
theorem consistent_historyOf (tree : Tree) (place : Place) (provider : String)
    (versions : List Int)
    : (historyOf tree place provider versions).Consistent := by
  have begun : History.Consistent {} :=
    ⟨rfl, History.indexed_ofRecorded [], nofun⟩
  have grown (commits : List Recorded) {history : History} (h : history.Consistent)
      : (commits.foldl History.grown history).Consistent := by
    induction commits generalizing history with
    | nil => exact h
    | cons commit rest ih => exact ih (h.grown commit)
  exact grown _ begun

/-- A consistent history does not look for a commit in vain, since its positions lead to commits. -/
theorem History.Consistent.raises_commitAt (h : history.Consistent) (v : Int)
    : Raises (!·.isAstray) (history.commitAt v) := by
  unfold History.commitAt
  cases found : history.positions.lookup v with
  | none => exact Raises.error rfl
  | some position =>
      obtain ⟨commit, there, _⟩ := h.indexed.located found
      simp only [there]
      exact Raises.ok commit

/-- A consistent history does not look for metadata in vain, since it has those of every version
that it names.
-/
theorem History.Consistent.raises_metadataAt (h : history.Consistent) (v : Int)
    : Raises (!·.isAstray) (history.metadataAt v) := by
  unfold History.metadataAt
  cases last : (history.metadataVersions.takeWhile (· ≤ v)).getLast? with
  | none => exact Raises.error rfl
  | some version =>
      have member := (List.takeWhile_prefix _).mem (List.mem_of_getLast? last)
      obtain ⟨metadata, found⟩ := Option.isSome_iff_exists.mp (h.recorded version member)
      simp only [found]
      exact Raises.ok metadata

-----------------------------------------------------------------------------------------
-- How far a log can be taken in
-----------------------------------------------------------------------------------------

-- unfolding what a file adds is never of use below, and slow
attribute [local irreducible] gain

/-- (takeIn tree place provider seen versions) takes in one version after the other, after those
that were seen, up to the first that cannot be taken in as a whole. It gives the versions that are
seen then, and those that are left.
-/
def takeIn (tree : Tree) (place : Place) (provider : String) (seen : List Int)
    : List Int → List Int × List Int
  | [] => (seen, [])
  | v :: rest =>
    match gain tree place provider (historyOf tree place provider seen).millis.getLast? v with
    | .ok _ => takeIn tree place provider (seen ++ [v]) rest
    | .error _ => (seen, v :: rest)

/-- (taken tree place provider) are the versions of a log that can be taken in. -/
def taken (tree : Tree) (place : Place) (provider : String) : List Int :=
  (takeIn tree place provider [] (committed tree place)).1

/-- (left tree place provider) are the versions from the first that cannot be taken in. -/
def left (tree : Tree) (place : Place) (provider : String) : List Int :=
  (takeIn tree place provider [] (committed tree place)).2

/-- (StopsCleanly tree place provider) says that all versions of a log can be taken in, or else the
time of the first that cannot is not even read.
-/
def StopsCleanly (tree : Tree) (place : Place) (provider : String) : Prop :=
  ∀ v ∈ (left tree place provider).head?, ∃ failure, timeAt tree place v = .error failure

/-- Versions are not lost or moved when they are taken in. -/
theorem takeIn_append (seen rest : List Int)
    : (takeIn tree place provider seen rest).1 ++ (takeIn tree place provider seen rest).2
      = seen ++ rest := by
  induction rest generalizing seen with
  | nil => rfl
  | cons v rest ih =>
      rw [takeIn]
      split
      · rw [ih]
        simp
      · rfl

/-- What cannot be taken in cannot be taken in again. -/
theorem takeIn_takeIn (seen rest : List Int)
    : takeIn tree place provider (takeIn tree place provider seen rest).1
        (takeIn tree place provider seen rest).2
      = takeIn tree place provider seen rest := by
  induction rest generalizing seen with
  | nil => rfl
  | cons v rest ih =>
      cases gained
          : gain tree place provider (historyOf tree place provider seen).millis.getLast? v with
      | ok commit => simpa only [takeIn, gained] using ih (seen ++ [v])
      | error failure => simp only [takeIn, gained]

/-- The first version that is left cannot be taken in after those that were. -/
theorem gain_of_takeIn {seen rest more : List Int}
    (stopped : (takeIn tree place provider seen rest).2 = v :: more)
    : ∃ failure,
        gain tree place provider
          (historyOf tree place provider
            (takeIn tree place provider seen rest).1).millis.getLast? v
        = .error failure := by
  induction rest generalizing seen with
  | nil => cases stopped
  | cons u rest ih =>
      cases gained
          : gain tree place provider (historyOf tree place provider seen).millis.getLast? u with
      | ok commit =>
          simp only [takeIn, gained] at stopped ⊢
          exact ih stopped
      | error failure =>
          simp only [takeIn, gained] at stopped ⊢
          cases stopped
          exact ⟨failure, gained⟩

/-- The time of each version that is taken in can be read. -/
theorem timeAt_of_mem_takeIn {seen rest : List Int}
    (member : v ∈ (takeIn tree place provider seen rest).1) (new : v ∉ seen)
    : ∃ raw, timeAt tree place v = .ok raw := by
  induction rest generalizing seen with
  | nil => exact absurd member new
  | cons u rest ih =>
      cases gained
          : gain tree place provider (historyOf tree place provider seen).millis.getLast? u with
      | ok commit =>
          simp only [takeIn, gained] at member
          by_cases same : v = u
          · exact same ▸ timeAt_of_gain gained
          · exact ih member (by simp [new, same])
      | error failure =>
          simp only [takeIn, gained] at member
          exact absurd member new

/-- The versions that can be taken in and those that are left are all versions of the log. -/
theorem taken_append_left (tree : Tree) (place : Place) (provider : String)
    : taken tree place provider ++ left tree place provider = committed tree place :=
  takeIn_append [] _

/-- A log that stops cleanly takes in the versions below those that are left. -/
theorem StopsCleanly.above (clean : StopsCleanly tree place provider)
    : ∀ v ∈ left tree place provider, ∀ u ∈ taken tree place provider, u < v := by
  intro v isLeft u isTaken
  have sorted := committed_sorted tree place
  rw [← taken_append_left tree place provider] at sorted
  obtain ⟨_, inOrder, across⟩ := List.pairwise_append.mp sorted
  obtain ⟨first, rest, begins⟩ := List.exists_cons_of_ne_nil (List.ne_nil_of_mem isLeft)
  rw [begins] at isLeft inOrder across
  have upTo : first ≤ v := by
    rcases List.mem_cons.mp isLeft with rfl | later
    · exact Int.le_refl v
    · exact (List.pairwise_cons.mp inOrder).1 v later
  have below := across u isTaken first List.mem_cons_self
  have other : u ≠ first := by
    rintro rfl
    obtain ⟨failure, untimed⟩ := clean u (by simp [begins])
    obtain ⟨raw, timed⟩ := timeAt_of_mem_takeIn isTaken (by simp)
    rw [timed] at untimed
    cases untimed
  omega

-----------------------------------------------------------------------------------------
-- Refreshing
-----------------------------------------------------------------------------------------

/-- (refreshedAt tree place provider) is how a refresh of a log ends. -/
def refreshedAt (tree : Tree) (place : Place) (provider : String) : Except Failure Unit := do
  let _ ← listVersions tree place
  match left tree place provider with
  | [] => return ()
  | v :: _ =>
    let last := (historyOf tree place provider (taken tree place provider)).millis.getLast?
    let _ ← gain tree place provider last v
    return ()

/-- (Underway tree place provider log) says that the history of a log is that of the first versions
that can be taken in, all below the others.
-/
def Underway (tree : Tree) (place : Place) (provider : String) (log : CommitLog) : Prop :=
  ∃ seen more,
    committed tree place = seen ++ more
    ∧ (∀ v ∈ more, ∀ u ∈ seen, u < v)
    ∧ takeIn tree place provider seen more = takeIn tree place provider [] (committed tree place)
    ∧ Keeps tree place provider (fun _ => False) (historyOf tree place provider seen) log

/-- (Refreshed tree place provider log) says that a log took in all versions that can be taken in
if it stops cleanly, and that it located the first that cannot if not.
-/
structure Refreshed (tree : Tree) (place : Place) (provider : String) (log : CommitLog) : Prop where
  keeps
    : StopsCleanly tree place provider
      → Keeps tree place provider (fun _ => False)
          (historyOf tree place provider (taken tree place provider)) log
  located
    : ∀ v ∈ (left tree place provider).head?, ∀ raw,
        timeAt tree place v = .ok raw → (log.history.positions.lookup v).isSome

namespace CommitLog

/-- Versions are taken in one after the other up to the first that cannot be. -/
theorem forEach_extend_yields {seen rest : List Int} {result : Except Failure Unit}
    {Q : CommitLog → Prop}
    (stops
      : ∀ log,
          Keeps tree place provider (fun _ => False)
            (historyOf tree place provider (takeIn tree place provider seen rest).1) log
          → (Op.forEach (takeIn tree place provider seen rest).2 (extend tree)).Yields log result Q)
    (h : Keeps tree place provider (fun _ => False) (historyOf tree place provider seen) log)
    : (Op.forEach rest (extend tree)).Yields log result Q := by
  induction rest generalizing seen log with
  | nil => exact stops log h
  | cons v rest ih =>
      cases gained
          : gain tree place provider (historyOf tree place provider seen).millis.getLast? v with
      | ok commit =>
          simp only [takeIn, gained] at stops
          refine .bind (extend_yields_gain id gained h) fun log keeps => ih stops ?_
          rw [historyOf_append, recorded_of_gain gained]
          exact keeps
      | error failure =>
          simp only [takeIn, gained] at stops
          exact stops log h

/-- A log that took in all versions that can be taken in stops at the first that is left. -/
theorem extend_left_yields {all : List Int} (listed : listVersions tree place = .ok all)
    (h : Keeps tree place provider (fun _ => False)
      (historyOf tree place provider (taken tree place provider)) log)
    : (Op.forEach (left tree place provider) (extend tree)).Yields log
        (refreshedAt tree place provider) (Refreshed tree place provider) := by
  cases rest : left tree place provider with
  | nil =>
      have whole : refreshedAt tree place provider = Except.ok () := by
        simp only [refreshedAt, listed, rest, bind, Except.bind]
        rfl
      rw [whole]
      exact .pure () ⟨fun _ => h, by simp [rest]⟩
  | cons v more =>
      obtain ⟨failure, stopped⟩ := gain_of_takeIn rest
      have failed : refreshedAt tree place provider = Except.error failure := by
        simp only [refreshedAt, listed, rest, taken, stopped, bind, Except.bind]
      rw [failed]
      cases timed : timeAt tree place v with
      | error untimed =>
          have same : failure = untimed := by
            rw [gain_of_untimed timed] at stopped
            exact (Except.error.inj stopped).symm
          refine .bind_error ((extend_yields_untimed id (same ▸ timed) h).mono fun log keeps => ?_)
          exact ⟨fun _ => keeps, by simp [rest, timed]⟩
      | ok raw =>
          refine .bind_error (extend_yields_enter id timed h fun log keeps => ?_)
          have entered := enter_yields id timed keeps
          rw [taken, stopped] at entered
          refine entered.mono fun log => ?_
          rintro ⟨next, keeps, located, _⟩
          refine ⟨fun clean => ?_, ?_⟩
          · obtain ⟨untimed, never⟩ := clean v (by simp [rest])
            rw [timed] at never
            cases never
          · rw [rest, keeps.history_eq]
            intro u same _ _
            cases same
            exact located

/-- A log on the way takes in all that it can, and ends as the files tell. -/
theorem refresh_yields_refreshedAt (h : Underway tree place provider log)
    : (refresh tree).Yields log (refreshedAt tree place provider)
        (Refreshed tree place provider) := by
  obtain ⟨seen, more, split, above, goesOn, keeps⟩ := h
  apply Op.Yields.bind_current
  rw [keeps.place_eq]
  cases listed : listVersions tree place with
  | error failure =>
      have none : committed tree place = [] := committed_of_error listed
      obtain ⟨rfl, rfl⟩ := List.append_eq_nil_iff.mp (split.symm.trans none)
      have failed : refreshedAt tree place provider = .error failure := by
        simp only [refreshedAt, listed, bind, Except.bind]
      rw [failed]
      refine .bind_error (.ofResult _ ⟨fun _ => ?_, ?_⟩)
      · rw [taken, ← goesOn]
        exact keeps
      · rw [left, ← goesOn]
        nofun
  | ok all =>
      have known : Known tree place provider (historyOf tree place provider seen) :=
        ⟨seen, more, split, above, rfl⟩
      have fits
          : (resetUnlessFits all).Yields log (.ok ())
              (Keeps tree place provider (fun _ => False)
                (historyOf tree place provider seen)) := by
        apply Op.Yields.bind_current
        rw [keeps.history_eq, ← committed_of_listVersions listed, fits_of_known known]
        exact .pure () keeps
      apply Op.Yields.bind_ofResult
      refine .bind fits fun log keeps => ?_
      apply Op.Yields.bind_current
      rw [keeps.history_eq, ← committed_of_listVersions listed]
      dsimp only
      rw [dropWhile_known split above]
      refine forEach_extend_yields (fun log keeps => ?_) keeps
      rw [goesOn] at keeps ⊢
      exact extend_left_yields listed keeps

end CommitLog

/-- A log without a history is on the way. -/
theorem underway_empty (h : Keeps tree place provider (fun _ => False) {} log)
    : Underway tree place provider log :=
  ⟨[], committed tree place, rfl, by simp, rfl, h⟩

/-- A log that stops cleanly is on the way after a refresh. -/
theorem Refreshed.underway (clean : StopsCleanly tree place provider)
    (h : Refreshed tree place provider log)
    : Underway tree place provider log :=
  ⟨taken tree place provider, left tree place provider, (taken_append_left _ _ _).symm,
    clean.above, takeIn_takeIn _ _, h.keeps clean⟩

/-- A log on the way has a consistent history. -/
theorem Underway.consistent (h : Underway tree place provider log)
    : log.history.Consistent := by
  obtain ⟨seen, _, _, _, _, keeps⟩ := h
  exact keeps.history_eq ▸ consistent_historyOf tree place provider seen

/-- Versions that were seen stay seen, by induction on the others. -/
theorem mem_takeIn {seen rest : List Int} (member : v ∈ seen)
    : v ∈ (takeIn tree place provider seen rest).1 := by
  induction rest generalizing seen with
  | nil => exact member
  | cons u rest ih =>
      rw [takeIn]
      split
      · exact ih (List.mem_append_left _ member)
      · exact member

/-- A log on the way only knows versions that can be taken in. -/
theorem Underway.mem_taken (h : Underway tree place provider log)
    (has : (log.history.positions.lookup v).isSome)
    : v ∈ taken tree place provider := by
  obtain ⟨seen, more, _, _, goesOn, keeps⟩ := h
  rw [keeps.history_eq] at has
  rw [taken, ← goesOn]
  exact mem_takeIn (isSome_positions_historyOf.mp has)

-----------------------------------------------------------------------------------------
-- Calls
-----------------------------------------------------------------------------------------

section Calls

variable {α : Type}

/-- What is read off a refreshed log is told by the versions that can be taken in. -/
theorem Underway.refreshed_yields {next : CommitLog → Op CommitLog α}
    (answer : History → Except Failure α) (clean : StopsCleanly tree place provider)
    (read
      : ∀ log, Underway tree place provider log
        → (next log).Yields log (answer log.history) (Underway tree place provider))
    (h : Underway tree place provider log)
    : (do CommitLog.refresh tree; next (← .current)).Yields log
        (refreshedAt tree place provider
          >>= fun _ => answer (historyOf tree place provider (taken tree place provider)))
        (Underway tree place provider) := by
  refine .seq (CommitLog.refresh_yields_refreshedAt h) (fun _ after => after.underway clean) ?_
  intro _ log _ after
  rw [← (after.keeps clean).history_eq]
  exact .bind_current (read log (after.underway clean))

/-- A commit that is asked for on the way is the one at hand, or else what a refresh brings. -/
theorem Underway.commitAt_yields (clean : StopsCleanly tree place provider) (v : Int)
    (h : Underway tree place provider log)
    : (CommitLog.commitAt tree v).Yields log
        (if (log.history.positions.lookup v).isNone
          then refreshedAt tree place provider
            >>= fun _ =>
              (historyOf tree place provider (taken tree place provider)).commitAt v
          else log.history.commitAt v)
        (Underway tree place provider) := by
  apply Op.Yields.bind_current
  split
  case isTrue =>
    exact h.refreshed_yields (·.commitAt v) clean fun log underway => .ofResult _ underway
  case isFalse => exact .bind_current (.ofResult _ h)

/-- The active commit that is asked for on the way is that of all versions that can be taken in. -/
theorem Underway.activeCommit_yields (clean : StopsCleanly tree place provider)
    (time : Time.Timestamp) (inclusive : Bool) (h : Underway tree place provider log)
    : (CommitLog.activeCommit tree time inclusive).Yields log
        (do
          let utc ← time.toUtc
          let _ ← refreshedAt tree place provider
          activeIn (historyOf tree place provider (taken tree place provider)) utc inclusive)
        (Underway tree place provider) := by
  apply Op.Yields.seq (.ofResult time.toUtc h) (fun _ h => h)
  intro utc log _ h
  refine h.refreshed_yields (activeIn · utc inclusive) clean fun log underway => ?_
  unfold activeIn
  cases log.history.activeAt utc inclusive with
  | some commit => exact .pure commit underway
  | none => exact .fail _ underway

/-- The commit of a version that cannot be taken in is never found. -/
theorem exists_commitAt_error (clean : StopsCleanly tree place provider)
    (other : v ∉ taken tree place provider)
    : ∃ failure, ∀ log,
        Underway tree place provider log
        → (CommitLog.commitAt tree v).Yields log (.error failure)
            (Underway tree place provider) := by
  have unlisted
      : (historyOf tree place provider (taken tree place provider)).positions.lookup v
        = none :=
    Option.not_isSome_iff_eq_none.mp (mt isSome_positions_historyOf.mp other)
  have missing
      : ∃ failure,
          (refreshedAt tree place provider
            >>= fun _ =>
              (historyOf tree place provider (taken tree place provider)).commitAt v)
          = .error failure := by
    cases refreshedAt tree place provider with
    | error failure => exact ⟨failure, rfl⟩
    | ok _ =>
        simp only [bind, Except.bind, History.commitAt, unlisted]
        exact ⟨_, rfl⟩
  obtain ⟨failure, missing⟩ := missing
  refine ⟨failure, fun log underway => ?_⟩
  have found := underway.commitAt_yields clean v
  rw [if_pos, missing] at found
  · exact found
  · exact Option.isNone_iff_eq_none.mpr
      (Option.not_isSome_iff_eq_none.mp fun has => other (underway.mem_taken has))

/-- A refresh that stops cleanly fails as the files do, so that nothing is looked up in vain. -/
theorem refreshedAt_raises (clean : StopsCleanly tree place provider)
    : Raises (!·.isAstray) (refreshedAt tree place provider) := by
  refine .bind ((listVersions_raises tree place).mono fun _ => Failure.isAstray_of_isOfFiles) ?_
  intro _ _
  cases rest : left tree place provider with
  | nil => exact Raises.ok ()
  | cons v more =>
      obtain ⟨failure, untimed⟩ := clean v (by simp [rest])
      dsimp only
      rw [gain_of_untimed untimed]
      have raised := timeAt_raises tree place v failure untimed
      exact Raises.error (Failure.isAstray_of_isOfFiles raised)

/-- So a commit that is asked for on the way is not looked up in vain. -/
theorem Underway.commitAt_raises (clean : StopsCleanly tree place provider) (v : Int)
    (h : Underway tree place provider log)
    : Raises (!·.isAstray) ((CommitLog.commitAt tree v).run log).result := by
  rw [(h.commitAt_yields clean v).result_eq]
  split
  · have whole := consistent_historyOf tree place provider (taken tree place provider)
    exact .bind (refreshedAt_raises clean) fun _ _ => whole.raises_commitAt v
  · exact h.consistent.raises_commitAt v

/-- Metadata that are asked for on the way are not looked up in vain either. -/
theorem Underway.metadataAt_raises (clean : StopsCleanly tree place provider) (v : Int)
    (h : Underway tree place provider log)
    : ∃ result,
        (CommitLog.metadataAt tree v).Yields log result (Underway tree place provider)
        ∧ Raises (!·.isAstray) result := by
  have dated := h.commitAt_yields clean v
  have finds := h.commitAt_raises clean v
  cases ended : ((CommitLog.commitAt tree v).run log).result with
  | error failure =>
      refine ⟨.error failure, .bind_error ⟨ended, dated.leaves⟩, ?_⟩
      exact Raises.error (finds failure ended)
  | ok commit =>
      have underway := dated.leaves
      refine ⟨_, .bind (Q := (· = ((CommitLog.commitAt tree v).run log).state)) ⟨ended, rfl⟩ ?_,
        underway.consistent.raises_metadataAt v⟩
      intro next same
      subst same
      exact .bind_current (.ofResult _ underway)

/-- (call.version? ) is the version of a call that is about the history of one version. -/
def Call.version? : Call α → Option Int
  | .commitAt v | .metadataAt v => some v
  | _ => none

/-- A log that stops cleanly answers each call alike, however far it is on the way, if the call is
not about a version that can be taken in.
-/
theorem exists_answer (clean : StopsCleanly tree place provider) (call : Call α)
    (other : ∀ v, call.version? = some v → v ∉ taken tree place provider)
    : ∃ result, ∀ log,
        Underway tree place provider log
        → (call.run tree).Yields log result (Underway tree place provider) := by
  cases call with
  | commits =>
      exact ⟨_, fun log h =>
        h.refreshed_yields (.ok ·.commits) clean fun log underway => .pure _ underway⟩
  | activeCommit time inclusive =>
      exact ⟨_, fun log h => h.activeCommit_yields clean time inclusive⟩
  | commitAt v =>
      obtain ⟨failure, missing⟩ := exists_commitAt_error clean (other v rfl)
      exact ⟨.error failure, missing⟩
  | metadataAt v =>
      obtain ⟨failure, missing⟩ := exists_commitAt_error clean (other v rfl)
      exact ⟨.error failure, fun log h => .bind_error (missing log h)⟩
  | actions v =>
      refine ⟨actionsAt tree place v, fun log h => ?_⟩
      obtain ⟨seen, more, split, above, goesOn, keeps⟩ := h
      exact (CommitLog.actions_yields id keeps).mono fun log keeps =>
        ⟨seen, more, split, above, goesOn, keeps⟩
  | latest =>
      refine ⟨latestVersion tree place, fun log h => ?_⟩
      have place_eq : log.place = place := by
        obtain ⟨_, _, _, _, _, keeps⟩ := h
        exact keeps.place_eq
      apply Op.Yields.bind_current
      rw [place_eq]
      exact .ofResult _ h
  | listing v table =>
      refine ⟨CommitLog.listingAt tree place v table, fun log h => ?_⟩
      obtain ⟨seen, more, split, above, goesOn, keeps⟩ := h
      exact (CommitLog.listing_yields (fun _ _ => id) table keeps).mono fun log keeps =>
        ⟨seen, more, split, above, goesOn, keeps⟩
  | close =>
      refine ⟨.ok (), fun log h => .change _ (underway_empty ?_)⟩
      obtain ⟨_, _, _, _, _, keeps⟩ := h
      exact ⟨keeps.place_eq, keeps.provider_eq, rfl, nofun⟩

end Calls

-----------------------------------------------------------------------------------------
-- Runs with failures
-----------------------------------------------------------------------------------------

/-- (Asked settings base tree log) says that a log that was opened at a base is in some state after
it was called, in any order, whether or not the calls failed.
-/
inductive Asked (settings : Settings) (base : Path) (tree : Tree) : CommitLog → Prop where
  | opened : Asked settings base tree (.ofBase settings base)
  | called {log : CommitLog} {α : Type} (call : Call α)
    : Asked settings base tree log → Asked settings base tree ((call.run tree).run log).state

/-- (Recovers settings base tree log) says that no failure left its mark on a log: its history is
consistent, so that no lookup of a version goes astray, and it answers each call like a log that is
newly opened, unless the call is about a version that can be taken in. So it fails where that log
fails on a version that cannot be.
-/
structure Recovers (settings : Settings) (base : Path) (tree : Tree) (log : CommitLog) : Prop where
  consistent : log.history.Consistent
  commitAt_raises : ∀ v, Raises (!·.isAstray) ((CommitLog.commitAt tree v).run log).result
  metadataAt_raises : ∀ v, Raises (!·.isAstray) ((CommitLog.metadataAt tree v).run log).result
  retried
    : ∀ {α : Type} (call : Call α),
        (∀ v,
          call.version? = some v
          → v ∈ left tree (.ofBase settings base) settings.defaultProvider
            ∨ v ∉ committed tree (.ofBase settings base))
        → ((call.run tree).run log).result
          = ((call.run tree).run (.ofBase settings base)).result

section Runs

variable {settings : Settings} {base : Path}

/-- A log that is newly opened is on the way. -/
theorem underway_ofBase (settings : Settings) (base : Path) (tree : Tree)
    : Underway tree (.ofBase settings base) settings.defaultProvider (.ofBase settings base) :=
  underway_empty ⟨rfl, rfl, rfl, nofun⟩

/-- On the way nothing recalls a failure, if the log stops cleanly. -/
theorem Underway.recovers
    (clean : StopsCleanly tree (.ofBase settings base) settings.defaultProvider)
    (h : Underway tree (.ofBase settings base) settings.defaultProvider log)
    : Recovers settings base tree log where
  consistent := h.consistent
  commitAt_raises v := h.commitAt_raises clean v
  metadataAt_raises v := by
    obtain ⟨result, yields, finds⟩ := h.metadataAt_raises clean v
    exact yields.result_eq ▸ finds
  retried call about := by
    obtain ⟨result, answers⟩ := exists_answer clean call fun v same isTaken => by
      rcases about v same with isLeft | never
      · exact absurd (clean.above v isLeft v isTaken) (Int.lt_irrefl v)
      · rw [← taken_append_left] at never
        exact never (List.mem_append_left _ isTaken)
    rw [(answers log h).result_eq, (answers _ (underway_ofBase settings base tree)).result_eq]

/-- No call, whether or not it fails, leads off the way. -/
theorem Underway.called {α : Type}
    (clean : StopsCleanly tree place provider) (call : Call α)
    (h : Underway tree place provider log)
    : Underway tree place provider ((call.run tree).run log).state := by
  cases about : call.version? with
  | none =>
      obtain ⟨_, answers⟩ := exists_answer clean call (by simp [about])
      exact (answers log h).leaves
  | some v =>
      cases call with
      | commitAt v => exact (h.commitAt_yields clean v).leaves
      | metadataAt v =>
          obtain ⟨_, yields, _⟩ := h.metadataAt_raises clean v
          exact yields.leaves
      | _ => cases about

/-- A log that was asked anything is on the way, by induction on the calls. -/
theorem Asked.underway
    (clean : StopsCleanly tree (.ofBase settings base) settings.defaultProvider)
    (h : Asked settings base tree log)
    : Underway tree (.ofBase settings base) settings.defaultProvider log := by
  induction h with
  | opened => exact underway_ofBase settings base tree
  | called call _ ih => exact ih.called clean call

/-- As long as a version is left, every refresh fails. -/
theorem exists_refreshedAt_error (isFirst : v ∈ (left tree place provider).head?)
    : ∃ failure, refreshedAt tree place provider = .error failure := by
  cases listed : listVersions tree place with
  | error failure =>
      exact ⟨failure, by simp only [refreshedAt, listed, bind, Except.bind]⟩
  | ok all =>
      obtain ⟨more, rest⟩ := List.head?_eq_some_iff.mp isFirst
      obtain ⟨failure, stopped⟩ := gain_of_takeIn rest
      exact ⟨failure, by simp only [refreshedAt, listed, rest, taken, stopped, bind, Except.bind]⟩

/-- A version that is held halfway is answered from the history, unlike in a newly opened log. -/
theorem not_recovers_halfway {raw : Int}
    (isFirst : v ∈ (left tree (.ofBase settings base) settings.defaultProvider).head?)
    (timed : timeAt tree (.ofBase settings base) v = .ok raw)
    : ¬Recovers settings base tree
        ((Call.commits.run tree).run (.ofBase settings base)).state := by
  intro recovers
  obtain ⟨failure, failed⟩ := exists_refreshedAt_error isFirst
  have refreshed :=
    failed ▸ CommitLog.refresh_yields_refreshedAt (underway_ofBase settings base tree)
  have asked
      : (Call.commits.run tree).Yields (.ofBase settings base) (.error failure)
          (Refreshed tree (.ofBase settings base) settings.defaultProvider) :=
    .bind_error refreshed
  have fresh
      : ((Call.commitAt v).run tree).Yields (.ofBase settings base) (.error failure)
          (Refreshed tree (.ofBase settings base) settings.defaultProvider) :=
    .bind_current (.bind_error refreshed)
  have again := recovers.retried (.commitAt v) fun u same => by
    cases same
    exact Or.inl (List.mem_of_mem_head? isFirst)
  rw [fresh.result_eq] at again
  have located := asked.leaves.located v isFirst raw timed
  generalize ((Call.commits.run tree).run (.ofBase settings base)).state = log at *
  obtain ⟨position, found⟩ := Option.isSome_iff_exists.mp located
  obtain ⟨commit, there, _⟩ := recovers.consistent.indexed.located found
  have kept
      : ((Call.commitAt v).run tree).Yields log (.ok commit) (fun _ => True) := by
    apply Op.Yields.bind_current
    rw [found]
    apply Op.Yields.bind_current
    simp only [History.commitAt, found, there]
    exact .ofResult _ trivial
  rw [kept.result_eq] at again
  cases again

/-- Whatever is in the commit files, and however calls fail, a log recovers from every failure
exactly if the first version that cannot be taken in fails before anything of it is: otherwise the
log holds a version halfway, and goes on as if it had taken it in.
-/
theorem recovers_iff_stopsCleanly
    : (∀ log, Asked settings base tree log → Recovers settings base tree log)
      ↔ StopsCleanly tree (.ofBase settings base) settings.defaultProvider := by
  constructor
  · intro recovers v isFirst
    cases timed : timeAt tree (.ofBase settings base) v with
    | error failure => exact ⟨failure, rfl⟩
    | ok raw =>
        exact absurd (recovers _ (.called .commits .opened)) (not_recovers_halfway isFirst timed)
  · exact fun clean log asked => (asked.underway clean).recovers clean

/-- A log whose first file records metadata that are not valid. -/
def sampleBroken : Tree :=
  storeOf (filesOf [(0, commitFile r#"{"metaData":{"id":5}}"# 1000)])

/-- The metadata that are not valid are missed when they are asked for again. -/
theorem missingKey_sampleBroken
    : let asked := ((Call.metadataAt 0).run sampleBroken).run (.ofBase {} topPlace.base)
      Asked {} topPlace.base sampleBroken asked.state
      ∧ asked.result = .error (.invalid [{ place := ["table_id"], kind := .stringType }])
      ∧ (((Call.metadataAt 0).run sampleBroken).run asked.state).result
        = .error (.missingKey "0")
      ∧ ¬asked.state.history.Consistent := by
  refine ⟨.called (.metadataAt 0) .opened, by decide +kernel, by decide +kernel, fun h => ?_⟩
  exact absurd (h.recorded 0 (by decide +kernel)) (by decide +kernel)

end Runs

end DeltaFeed.Log
