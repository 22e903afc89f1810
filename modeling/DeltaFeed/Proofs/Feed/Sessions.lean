import DeltaFeed.Feed.Source
import DeltaFeed.Proofs.Feed.SnapshotContents
import DeltaFeed.Proofs.Log.Instants
import Mathlib.Data.List.Forall2

/-! The calls of a source in the session of a backlog. A session gives the actions of its
versions as the log has them, so that the change of a version depends on the version and on the
table alone.
-/

namespace DeltaFeed

open Log
open Store (Tree Path)
open Time (Timestamp)

-----------------------------------------------------------------------------------------
-- Changes
-----------------------------------------------------------------------------------------

namespace Change

variable {σ : Type} {s : σ} {Q : σ → Prop}

/-- Reporting statistics leaves the state as it is, action by action. -/
theorem reportStatistics_yields (actions : List Action) (h : Q s)
    : (reportStatistics actions : Op σ Unit).Yields s (.ok ()) Q := by
  refine Op.Yields.forEach (fun _ => Q) (fun action rest s h => ?_) h
  cases action with
  | remove file => exact .pure () h
  | add file =>
      dsimp only
      split
      · exact Statistics.report_yields file.stats h
      · exact .pure () h

/-- Reporting anomalies leaves the state as it is. -/
theorem reportAnomalies_yields (anomalies : List Anomaly) (h : Q s)
    : (reportAnomalies anomalies : Op σ Unit).Yields s (.ok ()) Q :=
  Op.Yields.forEach (fun _ => Q) (fun _ _ _ h => ⟨rfl, h⟩) h

/-- What a version changed is told whatever is reported on the way. -/
theorem extract_yields (version : Int) (table : Table) (actions : List Action) (h : Q s)
    : (extract version table actions : Op σ TableChange).Yields s
        (.ok (ofActions version table actions)) Q := by
  apply Op.Yields.bind (reportStatistics_yields actions h)
  intro s h
  apply Op.Yields.bind (reportAnomalies_yields _ h)
  intro s h
  dsimp only
  split
  · exact .bind_tell (.pure _ h)
  · exact .pure _ h

end Change

namespace Feed

-----------------------------------------------------------------------------------------
-- The versions of a session
-----------------------------------------------------------------------------------------

/-- Where the versions of a session can be listed, they are its versions. -/
theorem Session.listed_eq_ok {session : Session} {versions : List Int}
    (h : session.listed = .ok versions)
    : versions = session.versions := by
  unfold listed at h
  split at h
  · cases h
  · split at h
    · cases h
    · cases h
      rfl

/-- The last version of a session is its latest, if it has any. -/
theorem Session.getLast?_versions (session : Session)
    : session.versions.getLast?
      = if session.start ≤ session.latest then some session.latest else none := by
  unfold versions pending
  rw [List.getLast?_map, List.getLast?_range]
  split
  case isTrue none => rw [if_neg (by omega), Option.map_none]
  case isFalse some =>
    rw [if_pos (by omega), Option.map_some]
    congr
    omega

/-- The first version of a session is its start, if it has any. -/
theorem Session.head?_versions (session : Session)
    : session.versions.head?
      = if session.start ≤ session.latest then some session.start else none := by
  unfold versions pending
  rw [List.head?_map, List.head?_range]
  split
  case isTrue none => rw [if_neg (by omega), Option.map_none]
  case isFalse some => rw [if_pos (by omega), Option.map_some, Int.natCast_zero, Int.add_zero]

/-- Only a session of too many versions cannot be listed. -/
theorem Session.listed_eq_error {session : Session} {failure : Failure}
    (h : session.listed = .error failure)
    : maxListed < session.pending := by
  unfold listed at h
  split at h
  case isTrue many =>
    have : maxListed < maxCount := by decide
    omega
  case isFalse =>
    split at h
    case isTrue many => exact many
    case isFalse => cases h

theorem Session.listed_ne_invalid {session : Session} {issues : List Issue}
    (h : session.listed = .error (.invalid issues))
    : False := by
  unfold listed at h
  split at h
  · cases h
  · split at h <;> cases h

/-- The versions to process after a session go on where its versions end. -/
theorem Session.versions_append {start middle latest : Int} (begun : start ≤ middle + 1)
    (upTo : middle ≤ latest)
    : versions { start, latest := middle } ++ versions { start := middle + 1, latest }
      = versions { start, latest } := by
  have pending : (latest + 1 - start).toNat
      = (middle + 1 - start).toNat + (latest + 1 - (middle + 1)).toNat := by omega
  simp only [versions, Session.pending, pending, List.range_add, List.map_append, List.map_map]
  congr 1
  apply List.map_congr_left
  intro i _
  simp only [Function.comp_apply]
  omega

/-- The versions of a session are consecutive. -/
theorem Session.consecutive_versions (session : Session)
    : Consecutive session.versions := by
  refine ⟨session.start, ?_⟩
  rw [versions, List.length_map, List.length_range]

/-- The versions of a session are those from its start to its latest. -/
theorem Session.mem_versions {session : Session} {v : Int}
    : v ∈ session.versions ↔ session.start ≤ v ∧ v ≤ session.latest := by
  simp only [versions, pending, List.mem_map, List.mem_range]
  constructor
  · rintro ⟨i, inside, rfl⟩
    omega
  · intro inside
    exact ⟨(v - session.start).toNat, by omega, by omega⟩

/-- Versions that are too many to be listed are those of as many commits. -/
theorem lt_length_committed {place : Place} {provider : String} {commit latest : Commit}
    {failure : Failure} (consecutive : Consecutive (committed tree place))
    (isCommit : commit ∈ commitsOf tree place provider)
    (isLatest : latest ∈ commitsOf tree place provider)
    (listed
      : Session.listed { start := commit.version + 1, latest := latest.version }
        = .error failure)
    : maxListed < (committed tree place).length := by
  have many := Session.listed_eq_error listed
  have few :=
    consecutive.lt_add_length (version_mem_committed isCommit) (version_mem_committed isLatest)
  simp only [Session.pending] at many
  omega

-----------------------------------------------------------------------------------------
-- The actions that a session gives
-----------------------------------------------------------------------------------------

section Actions

variable {ρ : Type} {reader : Reader ρ} {session : Session} {v : Int} {s : ρ}

/-- A version outside a session is refused without reading the log. -/
theorem Session.actions_outside (outside : session.contains v = false)
    : (Session.actions reader v).run (s, session)
      = { result := .error (session.outside v), state := (s, session), entries := [] } := by
  rw [Session.actions, Op.run_bind_ok (a := (s, session)) rfl]
  dsimp only
  rw [outside]
  rfl

/-- Actions that a session keeps are given without reading the log. -/
theorem Session.actions_kept {found : List Action} (inside : session.contains v = true)
    (kept : session.fetched.lookup v = some found)
    : (Session.actions reader v).run (s, session)
      = { result := .ok found, state := (s, session), entries := [] } := by
  rw [Session.actions, Op.run_bind_ok (a := (s, session)) rfl]
  dsimp only
  rw [inside, if_neg (by decide), kept]
  rfl

/-- (session.after version result) is a session after the log was read for the actions of a version.
-/
def Session.after (session : Session) (version : Int) (result : Except Failure (List Action))
    : Session :=
  match result with
  | .ok found => { session with fetched := put version found session.fetched }
  | .error _ => session

/-- Actions that a session does not keep are read, and kept from then on if they can be. -/
theorem Session.actions_read (inside : session.contains v = true)
    (absent : session.fetched.lookup v = none)
    : (Session.actions reader v).Yields (s, session) ((reader.actions v).run s).result
        (· = (((reader.actions v).run s).state,
          session.after v ((reader.actions v).run s).result)) := by
  apply Op.Yields.bind_current
  dsimp only
  rw [inside, if_neg (by decide), absent]
  have first : (Op.onFirst (reader.actions v) : Op (ρ × Session) _).Yields (s, session)
      ((reader.actions v).run s).result (· = (((reader.actions v).run s).state, session)) :=
    ⟨rfl, rfl⟩
  cases read : ((reader.actions v).run s).result with
  | error failure =>
      rw [read] at first
      exact .bind_error first
  | ok found =>
      rw [read] at first
      refine .bind first fun both same => ?_
      subst same
      exact .bind (Q := (· = _)) ⟨rfl, rfl⟩ fun both same => .pure found same

/-- A session gives the actions of a version from those that it keeps, and else from the log. -/
theorem Session.actions_yields {result : Except Failure (List Action)} {Q : ρ × Session → Prop}
    (inside : session.contains v = true)
    (kept : ∀ found, session.fetched.lookup v = some found → .ok found = result ∧ Q (s, session))
    (read : (reader.actions v).Yields s result fun s => Q (s, session.after v result))
    : (Session.actions reader v).Yields (s, session) result Q := by
  cases isKept : session.fetched.lookup v with
  | some found =>
      have given : (Session.actions reader v).run (s, session) = _ := actions_kept inside isKept
      obtain ⟨same, holds⟩ := kept found isKept
      constructor
      · rw [given, same]
      · rw [given]
        exact holds
  | none =>
      have given : (Session.actions reader v).Yields (s, session) _ _ :=
        actions_read inside isKept
      rw [read.result_eq] at given
      refine given.mono fun both same => ?_
      subst same
      exact read.leaves

/-- What holds of a log and a session goes on to hold while the session gives actions, if it does
when the log is read for them.
-/
theorem Session.actions_preserves {P : ρ → Session → Prop}
    (read
      : ∀ s session, P s session
        → P ((reader.actions v).run s).state (session.after v ((reader.actions v).run s).result))
    : (Session.actions reader v).Preserves fun both => P both.1 both.2 := by
  rintro ⟨s, session⟩ h
  cases contains : session.contains v with
  | false =>
      rw [actions_outside contains]
      exact h
  | true =>
      cases kept : session.fetched.lookup v with
      | some found =>
          rw [actions_kept contains kept]
          exact h
      | none =>
          rw [(actions_read contains kept).leaves]
          exact read s session h

namespace Source

/-- A source asks its session for actions, and keeps the session that is left. -/
theorem sessionActions_run (source : Source ρ) (v : Int) (s : ρ) (session : Session)
    : (source.sessionActions v).run (s, .planned session)
      = let inner := (Session.actions source.reader v).run (s, session)
        { result := inner.result
          state := (inner.state.1, .planned inner.state.2)
          entries := inner.entries } := rfl

/-- What holds of a source goes on to hold while its session gives actions, if it does when the log
is read for them.
-/
theorem sessionActions_preserves {source : Source ρ} {P : ρ × Phase → Prop}
    (read
      : ∀ s session, P (s, .planned session)
        → P (((source.reader.actions v).run s).state,
            .planned (session.after v ((source.reader.actions v).run s).result)))
    : (source.sessionActions v).Preserves P := by
  rintro ⟨s, phase⟩ h
  cases phase with
  | fresh | ready | closed => exact h
  | planned session =>
      rw [sessionActions_run]
      exact Session.actions_preserves (P := fun s session => P (s, .planned session)) read _ h

end Source

end Actions
-----------------------------------------------------------------------------------------
-- Planning
-----------------------------------------------------------------------------------------

/-- (Source.ofLog tree identity) is a source over a log with files in a tree. -/
def Source.ofLog (tree : Tree) (identity : Identity) : Source CommitLog :=
  { reader := CommitLog.reader tree, lister := CommitLog.files tree, identity }

/-- (Resumes tree place provider now commit) says that a sync from an instant goes on after a
commit.
-/
def Resumes (tree : Tree) (place : Place) (provider : String) (now : Timestamp) (commit : Commit)
    : Prop :=
  historyAt tree place provider >>= (activeIn · now true) = .ok commit

/-- A source that is not closed can be entered, and is not closed then. -/
theorem Source.ensureOpen_yields {ρ : Type} (source : Source ρ) {P : ρ → Prop} {both : ρ × Phase}
    (h : P both.1) (notClosed : both.2 ≠ .closed)
    : source.ensureOpen.Yields both (.ok ()) (fun both => P both.1 ∧ both.2 ≠ .closed) := by
  obtain ⟨s, phase⟩ := both
  refine .bind (Q := (· = (s, phase))) (a := phase) ⟨rfl, rfl⟩ ?_
  intro both same
  subst same
  cases phase with
  | closed => exact absurd rfl notClosed
  | fresh => exact ⟨rfl, h, nofun⟩
  | ready => exact .pure () ⟨h, notClosed⟩
  | planned session => exact .pure () ⟨h, notClosed⟩

section Planning

variable {tree : Tree} {place : Place} {provider : String} {gone : Int → Prop}
  {log : CommitLog} {both : CommitLog × Phase} {t now : Timestamp} {commit : Commit} {latest : Int}

/-- A session begins with the version after the commit that its sync goes on from. -/
theorem plan_yields (apart : ∀ v ∈ committed tree place, ¬gone v)
    (sound : SoundLog tree place provider) (utc : t.toUtc = .ok now)
    (resumes : Resumes tree place provider now commit)
    (told : latestVersion tree place = .ok latest)
    (h : Agrees tree place provider gone log)
    : (plan (CommitLog.reader tree) (.moment t)).Yields log
        ((fun _ => { start := commit.version + 1, latest })
          <$> Session.listed { start := commit.version + 1, latest })
        (Agrees tree place provider gone) := by
  have led
      : (do
          let utc ← now.toUtc
          activeIn (← historyAt tree place provider) utc true)
        = .ok commit := by
    rw [Timestamp.toUtc_of_toUtc utc]
    exact resumes
  refine .bind (Q := Agrees tree place provider gone) ⟨utc, h⟩ fun log h => ?_
  refine .bind (led ▸ CommitLog.activeCommit_yields apart sound h now true) fun log h => ?_
  have created
      : (Session.create (CommitLog.reader tree) (commit.version + 1)).Yields log
          ((fun _ => { start := commit.version + 1, latest })
            <$> Session.listed { start := commit.version + 1, latest })
          (Agrees tree place provider gone) := by
    refine .bind (told ▸ CommitLog.latest_yields h) fun log h => ?_
    dsimp only
    cases Session.listed { start := commit.version + 1, latest } with
    | error failure => exact .bind_error (.ofResult _ h)
    | ok versions => exact .bind_ofResult (.bind_tell (.pure _ h))
  cases listed : Session.listed { start := commit.version + 1, latest } with
  | error failure =>
      rw [listed] at created
      exact .bind_error created
  | ok versions =>
      rw [listed] at created
      exact .bind created fun log h => .bind_tell (.pure _ h)

/-- The backlog from an instant, which may be wrapped, has the versions after the commit that a sync
goes on from.
-/
theorem backlog_yields (identity : Identity) (apart : ∀ v ∈ committed tree place, ¬gone v)
    (sound : SoundLog tree place provider) {instant : Value}
    (wrapped : instant ∈ [.moment t, .lastSync t]) (utc : t.toUtc = .ok now)
    (resumes : Resumes tree place provider now commit)
    (told : latestVersion tree place = .ok latest)
    (agrees : Agrees tree place provider gone both.1) (notClosed : both.2 ≠ .closed)
    : ((Source.ofLog tree identity).backlog instant).Yields both
        (Session.listed { start := commit.version + 1, latest })
        (fun both => Agrees tree place provider gone both.1 ∧ both.2 ≠ .closed) := by
  have entered {both : CommitLog × Phase} (agrees : Agrees tree place provider gone both.1)
      (notClosed : both.2 ≠ .closed)
      : (do
          let session ← .onFirst (plan (CommitLog.reader tree) (.moment t))
          Source.enter (.planned session)
          return session.versions : Op (CommitLog × Phase) (List Int)).Yields both
          (Session.listed { start := commit.version + 1, latest })
          (fun both => Agrees tree place provider gone both.1 ∧ both.2 ≠ .closed) := by
    obtain ⟨log, phase⟩ := both
    have planned := (plan_yields apart sound utc resumes told agrees).onFirst phase
    cases listed : Session.listed { start := commit.version + 1, latest } with
    | error failure =>
        rw [listed] at planned
        refine (Op.Yields.bind_error planned).mono fun both after => ⟨after.1, ?_⟩
        rw [after.2]
        exact notClosed
    | ok versions =>
        rw [listed] at planned
        obtain rfl := Session.listed_eq_ok listed
        exact .bind planned fun both after => ⟨rfl, after.1, nofun⟩
  have opened := Source.ensureOpen_yields (Source.ofLog tree identity) agrees notClosed
  simp only [List.mem_cons, List.not_mem_nil, or_false] at wrapped
  rcases wrapped with rfl | rfl
  · exact .bind opened fun both after => entered after.1 after.2
  · exact .bind opened fun both after => entered after.1 after.2

end Planning

-----------------------------------------------------------------------------------------
-- Sessions
-----------------------------------------------------------------------------------------

/-- (session.FetchedFrom tree place) says that the actions that a session keeps are those of the
log.
-/
def Session.FetchedFrom (session : Session) (tree : Tree) (place : Place) : Prop :=
  ∀ v actions, session.fetched.lookup v = some actions → actionsAt tree place v = .ok actions

/-- (Planned tree place start latest P both) says that the log of a source is in P, and that its
session is one for the versions from start to latest.
-/
structure Planned (tree : Tree) (place : Place) (start latest : Int) (P : CommitLog → Prop)
    (both : CommitLog × Phase)
    : Prop where
  log : P both.1
  session
    : ∃ session,
        both.2 = .planned session
        ∧ session.start = start
        ∧ session.latest = latest
        ∧ session.FetchedFrom tree place

section Sessions

variable {tree : Tree} {place : Place} {start latest v : Int} {P : CommitLog → Prop}
  {both : CommitLog × Phase} {actions : List Action} {identity : Identity}

/-- Entering a source keeps its session. -/
theorem Planned.ensureOpen (source : Source CommitLog) (h : Planned tree place start latest P both)
    : source.ensureOpen.Yields both (.ok ()) (Planned tree place start latest P) := by
  obtain ⟨log, phase⟩ := both
  obtain ⟨inLog, session, rfl, covers⟩ := h
  exact .bind (Q := (· = (log, .planned session))) ⟨rfl, rfl⟩ fun both same =>
    .pure () (same ▸ ⟨inLog, session, rfl, covers⟩)

/-- What is kept of the actions that were read is what the log has. -/
theorem Session.FetchedFrom.after {session : Session} {result : Except Failure (List Action)}
    (h : session.FetchedFrom tree place) (told : actionsAt tree place v = result)
    : (session.after v result).FetchedFrom tree place := by
  cases result with
  | error failure => exact h
  | ok actions =>
      intro u found kept
      rw [Session.after, lookup_put] at kept
      split at kept
      case isTrue same =>
        cases kept
        rw [same, told]
      case isFalse => exact h u found kept

/-- A session keeps its versions when actions are read. -/
theorem Session.after_versions (session : Session) (v : Int) (result : Except Failure (List Action))
    : (session.after v result).start = session.start
      ∧ (session.after v result).latest = session.latest := by
  cases result with
  | error failure => exact ⟨rfl, rfl⟩
  | ok found => exact ⟨rfl, rfl⟩

/-- A session gives the actions of its versions as the log has them. -/
theorem Planned.sessionActions {result : Except Failure (List Action)}
    (reads : ∀ log, P log → (CommitLog.actions tree v).Yields log result P)
    (told : actionsAt tree place v = result) (inside : start ≤ v ∧ v ≤ latest)
    (h : Planned tree place start latest P both)
    : ((Source.ofLog tree identity).sessionActions v).Yields both result
        (Planned tree place start latest P) := by
  obtain ⟨log, phase⟩ := both
  obtain ⟨inLog, session, rfl, rfl, rfl, fetched⟩ := h
  have contains : session.contains v = true := by simp [Session.contains, inside]
  have inner
      : (Session.actions (CommitLog.reader tree) v).Yields (log, session) result
          (fun both => P both.1 ∧ both.2.start = session.start
            ∧ both.2.latest = session.latest ∧ both.2.FetchedFrom tree place) := by
    refine Session.actions_yields contains (fun found kept => ?_) ?_
    · exact ⟨(fetched v found kept).symm.trans told, inLog, rfl, rfl, fetched⟩
    · refine (reads log inLog).mono fun log inLog => ⟨inLog, ?_⟩
      obtain ⟨sameStart, sameLatest⟩ := Session.after_versions session v result
      exact ⟨sameStart, sameLatest, fetched.after told⟩
  refine .bind (Q := (· = (log, .planned session))) ⟨rfl, rfl⟩ fun both same => ?_
  subst same
  refine .within inner ?_
  intro both known
  rcases both with ⟨after, next⟩
  rcases known with ⟨inAfter, sameStart, sameLatest, stillFetched⟩
  exact ⟨inAfter, next, rfl, sameStart, sameLatest, stillFetched⟩

/-- (ChangeOf identity v actions change) says that a change is what a version with some actions
changed in the table of an identity.
-/
def ChangeOf (identity : Identity) (v : Int) (actions : List Action) (change : TableChange)
    : Prop :=
  ∃ table : Table,
    table.basePath = identity.basePath ∧ change = Change.ofActions v table actions

/-- What a source tells of a version of its session is what the actions of the version changed. -/
theorem Planned.change_ensures
    (reads : ∀ log, P log → (CommitLog.actions tree v).Yields log (.ok actions) P)
    (projects : (projectTable (CommitLog.reader tree) identity v).Preserves P)
    (told : actionsAt tree place v = .ok actions) (inside : start ≤ v ∧ v ≤ latest)
    (h : Planned tree place start latest P both)
    : ((Source.ofLog tree identity).change v).Ensures both (ChangeOf identity v actions)
        (Planned tree place start latest P) := by
  apply Op.Ensures.bind (R := fun _ => True) (.of_yields (h.ensureOpen _) trivial)
  intro _ both _ opened
  refine .bind (R := (· = actions))
    (.of_yields (opened.sessionActions reads told inside) rfl) ?_
  intro found both isFound planned
  rcases both with ⟨log, phase⟩
  subst isFound
  have projected
      : (Op.onFirst (projectTable (CommitLog.reader tree) identity v)).Ensures (log, phase)
          (·.basePath = identity.basePath) (Planned tree place start latest P) :=
    ⟨fun _ => basePath_of_projectTable (CommitLog.reader tree) log,
      projects log planned.log, planned.session⟩
  apply Op.Ensures.bind projected
  intro table both sameBase planned
  exact .of_yields (Change.extract_yields v table _ planned) ⟨table, sameBase, rfl⟩

/-- A source tells what a version of its session changed if its table can be projected. -/
theorem Planned.change_returns
    (reads : ∀ log, P log → (CommitLog.actions tree v).Yields log (.ok actions) P)
    (projects : ∀ log, P log → (projectTable (CommitLog.reader tree) identity v).Returns log P)
    (told : actionsAt tree place v = .ok actions) (inside : start ≤ v ∧ v ≤ latest)
    (h : Planned tree place start latest P both)
    : ((Source.ofLog tree identity).change v).Returns both
        (Planned tree place start latest P) := by
  apply Op.Returns.bind (.of_yields (h.ensureOpen _))
  intro _ both opened
  apply Op.Returns.bind (.of_yields (opened.sessionActions reads told inside))
  intro actions both planned
  rcases both with ⟨log, phase⟩
  have projected
      : (Op.onFirst (projectTable (CommitLog.reader tree) identity v)).Returns (log, phase)
          (Planned tree place start latest P) :=
    (projects log planned.log).onFirst fun log inLog => ⟨inLog, planned.session⟩
  apply Op.Returns.bind projected
  intro table both planned
  exact .of_yields (Change.extract_yields v table actions planned)

-----------------------------------------------------------------------------------------
-- Changes of several versions
-----------------------------------------------------------------------------------------

variable {acts : Nat → List Action} {us : List Nat}

/-- The changes that are returned are those of the actions of their versions, by induction on the
versions.
-/
theorem Planned.changes_ensures
    (reads
      : ∀ u ∈ us, ∀ log, P log → (CommitLog.actions tree u).Yields log (.ok (acts u)) P)
    (projects
      : ∀ u ∈ us, (projectTable (CommitLog.reader tree) identity (u : Nat)).Preserves P)
    (told : ∀ u ∈ us, actionsAt tree place u = .ok (acts u))
    (inside : ∀ u ∈ us, start ≤ (u : Nat) ∧ (u : Nat) ≤ latest)
    (h : Planned tree place start latest P both)
    : ((Source.ofLog tree identity).changes (us.map fun (u : Nat) => (u : Int))).Ensures both
        (List.Forall₂ (fun (u : Nat) => ChangeOf identity u (acts u)) us)
        (Planned tree place start latest P) := by
  induction us generalizing both with
  | nil => exact .of_yields (.pure [] h) .nil
  | cons u rest ih =>
      refine .bind (h.change_ensures (reads u List.mem_cons_self) (projects u List.mem_cons_self)
        (told u List.mem_cons_self) (inside u List.mem_cons_self)) ?_
      intro change both isChange planned
      refine .bind (ih (fun u member => reads u (List.mem_cons_of_mem _ member))
        (fun u member => projects u (List.mem_cons_of_mem _ member))
        (fun u member => told u (List.mem_cons_of_mem _ member))
        (fun u member => inside u (List.mem_cons_of_mem _ member)) planned) ?_
      intro changes both areChanges planned
      exact .of_yields (.pure _ planned) (.cons isChange areChanges)

/-- The changes of a session are returned if the table can be told as of each version. -/
theorem Planned.changes_returns
    (reads
      : ∀ u ∈ us, ∀ log, P log → (CommitLog.actions tree u).Yields log (.ok (acts u)) P)
    (projects
      : ∀ u ∈ us, ∀ log, P log
        → (projectTable (CommitLog.reader tree) identity (u : Nat)).Returns log P)
    (told : ∀ u ∈ us, actionsAt tree place u = .ok (acts u))
    (inside : ∀ u ∈ us, start ≤ (u : Nat) ∧ (u : Nat) ≤ latest)
    (h : Planned tree place start latest P both)
    : ((Source.ofLog tree identity).changes (us.map fun (u : Nat) => (u : Int))).Returns both
        (Planned tree place start latest P) := by
  induction us generalizing both with
  | nil => exact .of_yields (.pure [] h)
  | cons u rest ih =>
      refine .bind (h.change_returns (reads u List.mem_cons_self) (projects u List.mem_cons_self)
        (told u List.mem_cons_self) (inside u List.mem_cons_self)) ?_
      intro change both planned
      refine .bind (ih (fun u member => reads u (List.mem_cons_of_mem _ member))
        (fun u member => projects u (List.mem_cons_of_mem _ member))
        (fun u member => told u (List.mem_cons_of_mem _ member))
        (fun u member => inside u (List.mem_cons_of_mem _ member)) planned) ?_
      intro changes both planned
      exact .of_yields (.pure _ planned)

end Sessions

end Feed

end DeltaFeed
