import DeltaFeed.Proofs.Feed.Calls
import DeltaFeed.Proofs.Log.Instants
import DeltaFeed.Proofs.Marker.RoundTrip

/-! A sync that goes on from the marker of the last commit that it handled skips no commit and
repeats none, however the log grows between its sessions. The marker leads back to the commit
that it was written for, and so each session begins where the one before it ended.
-/

namespace DeltaFeed.Feed

open Log
open Store (Tree Path)
open Time (Timestamp)

-----------------------------------------------------------------------------------------
-- Sessions that go on from a marker
-----------------------------------------------------------------------------------------

namespace Source

variable {ρ : Type}

/-- (source.handle versions) asks what each of some versions of the backlog changed, whatever
comes of it, and gives the versions that were handled.
-/
def handle (source : Source ρ) : List Int → Op (ρ × Phase) (List Int)
  | [] => return []
  | version :: rest => do
    let _ ← .attempt (source.change version)
    return version :: (← source.handle rest)

/-- (source.markerOf version) is the marker of the commit of a version. -/
def markerOf (source : Source ρ) (version : Int) : Op (ρ × Phase) String := do
  .ofResult (nextMarker (← source.commitAt version))

/-- (source.since marker hours) are the versions to process after the instant of a marker that is
moved back by some hours.
-/
def since (source : Source ρ) (marker : String) (hours : Time.Amount)
    : Op (ρ × Phase) (List Int) := do
  let instant ← Marker.lastSync (.text marker) hours
  source.backlog (.lastSync instant)

/-- (source.finish marker versions) handles some versions. It gives the versions that were handled,
and the marker of the last one: the given marker if there was none.
-/
def finish (source : Source ρ) (marker : String) (versions : List Int)
    : Op (ρ × Phase) (List Int × String) := do
  let handled ← source.handle versions
  match handled.getLast? with
  | none => return (handled, marker)
  | some last => return (handled, ← source.markerOf last)

/-- (source.catchUp marker hours) handles all that was committed after the instant of a marker that
is moved back by some hours.
-/
def catchUp (source : Source ρ) (marker : String) (hours : Time.Amount)
    : Op (ρ × Phase) (List Int × String) := do
  source.finish marker (← source.since marker hours)

/-- (source.resume marker) handles all that was committed after the commit of a marker. -/
def resume (source : Source ρ) (marker : String) : Op (ρ × Phase) (List Int × String) :=
  source.catchUp marker (.whole 0)

end Source

/-- A log is a sound feed if it is sound, its versions are consecutive, and its commits are of the
years with four digits.
-/
structure SoundFeed (tree : Tree) (place : Place) (provider : String) : Prop where
  log : SoundLog tree place provider
  consecutive : Consecutive (committed tree place)
  years
    : ∀ millis ∈ commitTimes tree place provider,
        1000 ≤ (Timestamp.utc (1000 * millis)).date.year

instance (tree : Tree) (place : Place) (provider : String)
    : Decidable (SoundFeed tree place provider) :=
  decidable_of_iff
    (SoundLog tree place provider
      ∧ Consecutive (committed tree place)
      ∧ ∀ millis ∈ commitTimes tree place provider,
          1000 ≤ (Timestamp.utc (1000 * millis)).date.year)
    ⟨fun ⟨log, consecutive, years⟩ => ⟨log, consecutive, years⟩, fun sound =>
      ⟨sound.log, sound.consecutive, sound.years⟩⟩

/-- (InUse tree place provider both) says that a source is not closed, and that its log agrees
with its files.
-/
structure InUse (tree : Tree) (place : Place) (provider : String) (both : CommitLog × Phase)
    : Prop where
  agrees : Agrees tree place provider (fun _ => False) both.1
  notClosed : both.2 ≠ .closed

section Sessions

variable {tree : Tree} {place : Place} {provider : String} {both : CommitLog × Phase}
  {identity : Identity} {commit : Commit} {v : Int} {hours : Time.Amount} {now : Timestamp}

/-- A source in use can be entered, and stays in use. -/
theorem InUse.ensureOpen (source : Source CommitLog) (h : InUse tree place provider both)
    : source.ensureOpen.Yields both (.ok ()) (InUse tree place provider) :=
  (source.ensureOpen_yields h.agrees h.notClosed).mono fun _ after => ⟨after.1, after.2⟩

/-- Asking for the change of a version keeps a source in use, whatever comes of it. -/
theorem InUse.change_preserves (identity : Identity) (v : Int)
    (sound : SoundLog tree place provider)
    : ((Source.ofLog tree identity).change v).Preserves (InUse tree place provider) := by
  have entered (phase : Phase) (notClosed : phase ≠ .closed) : phase.entered ≠ .closed := by
    cases phase with
    | closed => exact notClosed
    | fresh | ready | planned => exact nofun
  have keeps := keeps_ofLog identity sound entered fun _ _ _ _ _ => nofun
  intro both h
  have kept := keeps.run (.change v) rfl nofun both ⟨h.agrees, h.notClosed⟩
  exact ⟨kept.1, kept.2⟩

/-- Every version that is to be handled is handled. -/
theorem InUse.handle_yields (identity : Identity) (sound : SoundLog tree place provider)
    (versions : List Int) (h : InUse tree place provider both)
    : ((Source.ofLog tree identity).handle versions).Yields both (.ok versions)
        (InUse tree place provider) := by
  induction versions generalizing both with
  | nil => exact .pure [] h
  | cons version rest ih =>
      have asked := (change_preserves identity version sound).attempt both h
      refine .bind (Q := InUse tree place provider) ⟨rfl, asked⟩ fun both h => ?_
      exact .bind (ih h) fun both h => .pure _ h

/-- The instant of a commit is a time in UTC of a year with four digits. -/
theorem SoundFeed.exists_millis (feed : SoundFeed tree place provider)
    (isCommit : commit ∈ commitsOf tree place provider)
    : ∃ millis : Int,
        commit.timestamp = .utc (1000 * millis)
        ∧ Time.Representable (1000 * millis)
        ∧ 1000 ≤ (Timestamp.utc (1000 * millis)).date.year := by
  obtain ⟨millis, isTime, same⟩ := exists_millis_of_mem isCommit
  exact ⟨millis, same, feed.log.times millis isTime, feed.years millis isTime⟩

/-- The time of a commit is in UTC already. -/
theorem SoundFeed.toUtc (feed : SoundFeed tree place provider)
    (isCommit : commit ∈ commitsOf tree place provider)
    : commit.timestamp.toUtc = .ok commit.timestamp := by
  obtain ⟨millis, same, representable, _⟩ := feed.exists_millis isCommit
  rw [same, Timestamp.toUtc_utc representable]

/-- The marker after a commit is that of its time. -/
theorem SoundFeed.nextMarker (feed : SoundFeed tree place provider)
    (isCommit : commit ∈ commitsOf tree place provider)
    : Source.nextMarker commit = .ok (Marker.ofUtc commit.timestamp) := by
  rw [Source.nextMarker, Marker.write, feed.toUtc isCommit]
  rfl

/-- The marker of a commit is read as the instant of the commit. -/
theorem SoundFeed.readText (feed : SoundFeed tree place provider)
    (isCommit : commit ∈ commitsOf tree place provider)
    : Marker.readText (Marker.ofUtc commit.timestamp) = .ok commit.timestamp := by
  obtain ⟨millis, same, representable, late⟩ := feed.exists_millis isCommit
  rw [same, Marker.readText_ofUtc representable late]

/-- An instant that is moved back from a commit is not after it, and is in UTC. -/
theorem SoundFeed.movedBack (feed : SoundFeed tree place provider)
    (isCommit : commit ∈ commitsOf tree place provider)
    (moved : Marker.movedBack commit.timestamp hours = .ok now)
    : now ≤ commit.timestamp ∧ now.toUtc = .ok now := by
  obtain ⟨millis, same, representable, _⟩ := feed.exists_millis isCommit
  rw [same] at moved ⊢
  exact Marker.movedBack_eq_ok representable moved

/-- A sync goes on from the instant of the commit that its marker was written for, moved back by
some hours.
-/
theorem SoundFeed.lastSync_yields {σ : Type} {s : σ} {Q : σ → Prop}
    (feed : SoundFeed tree place provider) (isCommit : commit ∈ commitsOf tree place provider)
    (moved : Marker.movedBack commit.timestamp hours = .ok now) (h : Q s)
    : (Marker.lastSync (.text (Marker.ofUtc commit.timestamp)) hours : Op σ Timestamp).Yields s
        (.ok now) Q := by
  obtain ⟨millis, same, representable, late⟩ := feed.exists_millis isCommit
  rw [same] at moved ⊢
  exact Marker.lastSync_yields representable late moved h

/-- A sync from the instant of a commit goes on after that commit. -/
theorem resumes_of_mem (isCommit : commit ∈ commitsOf tree place provider)
    : Resumes tree place provider commit.timestamp commit := by
  have found := History.activeAt_of_mem (commitsOf_pairwise tree place provider) isCommit
  rw [Resumes, historyAt_of_mem isCommit]
  simp only [bind, Except.bind, activeIn, found]

/-- The commit of a version is the one that the files tell. -/
theorem InUse.commitAt_yields (identity : Identity) (feed : SoundFeed tree place provider)
    (isCommit : commit ∈ commitsOf tree place provider) (h : InUse tree place provider both)
    : ((Source.ofLog tree identity).commitAt commit.version).Yields both (.ok commit)
        (InUse tree place provider) := by
  have told : historyAt tree place provider >>= (·.commitAt commit.version) = .ok commit := by
    rw [historyAt_of_mem isCommit]
    exact commitAt_of_mem_commitsOf feed.consecutive isCommit
  apply Op.Yields.bind (h.ensureOpen _)
  intro both h
  have found := CommitLog.commitAt_yields (v := commit.version) (fun _ => id) feed.log h.agrees
  rw [told] at found
  refine (found.onFirst both.2).mono ?_
  intro both known
  rcases both with ⟨log, _⟩
  rcases known with ⟨⟨agrees, _⟩, rfl⟩
  exact ⟨agrees, h.notClosed⟩

/-- The marker of a version is the written instant of its commit. -/
theorem InUse.markerOf_yields (identity : Identity) (feed : SoundFeed tree place provider)
    (isCommit : commit ∈ commitsOf tree place provider) (h : InUse tree place provider both)
    : ((Source.ofLog tree identity).markerOf commit.version).Yields both
        (.ok (Marker.ofUtc commit.timestamp)) (InUse tree place provider) :=
  .bind (h.commitAt_yields identity feed isCommit) fun _ h => ⟨feed.nextMarker isCommit, h⟩

/-- The marker of a commit, moved back by some hours, leads to a commit of the log as it is now, and
the versions after that one are those to process.
-/
theorem SoundFeed.since_yields {after : Tree} {gone : Int → Prop} {start : Commit} {latest : Int}
    (identity : Identity) (feed : SoundFeed tree place provider)
    (isCommit : commit ∈ commitsOf tree place provider)
    (moved : Marker.movedBack commit.timestamp hours = .ok now)
    (apart : ∀ v ∈ committed after place, ¬gone v) (sound : SoundLog after place provider)
    (resumes : Resumes after place provider now start)
    (told : latestVersion after place = .ok latest)
    (agrees : Agrees after place provider gone both.1) (notClosed : both.2 ≠ .closed)
    : ((Source.ofLog after identity).since (Marker.ofUtc commit.timestamp) hours).Yields both
        (Session.listed { start := start.version + 1, latest })
        (fun both => Agrees after place provider gone both.1 ∧ both.2 ≠ .closed) := by
  have read := feed.lastSync_yields isCommit moved
    (Q := fun both : CommitLog × Phase =>
      Agrees after place provider gone both.1 ∧ both.2 ≠ .closed) ⟨agrees, notClosed⟩
  refine .bind read fun both after => ?_
  exact Feed.backlog_yields identity apart sound (by simp) (feed.movedBack isCommit moved).2 resumes
    told after.1 after.2

/-- A session that handles the versions from some commit on, up to the latest, ends with the marker
of the latest commit, if it began with the marker of a commit that is not before them.
-/
theorem InUse.finish_yields {start latest : Commit} (identity : Identity)
    (feed : SoundFeed tree place provider) (isCommit : commit ∈ commitsOf tree place provider)
    (isLatest : latest ∈ commitsOf tree place provider) (notAfter : start.version ≤ commit.version)
    (upTo : commit.version ≤ latest.version) (h : InUse tree place provider both)
    : ((Source.ofLog tree identity).finish (Marker.ofUtc commit.timestamp)
        (Session.versions { start := start.version + 1, latest := latest.version })).Yields both
        (.ok (Session.versions { start := start.version + 1, latest := latest.version },
          Marker.ofUtc latest.timestamp))
        (InUse tree place provider) := by
  apply Op.Yields.bind (h.handle_yields identity feed.log _)
  intro both h
  rw [Session.getLast?_versions]
  by_cases more : start.version + 1 ≤ latest.version
  · rw [if_pos more]
    exact .bind (h.markerOf_yields identity feed isLatest) fun both h => .pure _ h
  · obtain rfl : latest = commit :=
      eq_of_version_eq feed.consecutive isLatest isCommit (by omega)
    rw [if_neg more]
    exact .pure _ h

/-- A session that goes on from the marker of a commit, moved back by some hours, ends with the
marker of the latest commit.
-/
theorem InUse.catchUp_yields {start latest : Commit} (identity : Identity)
    (feed : SoundFeed tree place provider) (told : latestVersion tree place = .ok latest.version)
    (isCommit : commit ∈ commitsOf tree place provider)
    (isLatest : latest ∈ commitsOf tree place provider)
    (moved : Marker.movedBack commit.timestamp hours = .ok now)
    (resumes : Resumes tree place provider now start) (notAfter : start.version ≤ commit.version)
    (upTo : commit.version ≤ latest.version) (h : InUse tree place provider both)
    : ((Source.ofLog tree identity).catchUp (Marker.ofUtc commit.timestamp) hours).Yields both
        ((·, Marker.ofUtc latest.timestamp)
          <$> Session.listed { start := start.version + 1, latest := latest.version })
        (InUse tree place provider) := by
  have planned := feed.since_yields identity isCommit moved (fun _ _ => id) feed.log resumes told
    h.agrees h.notClosed
  cases listed : Session.listed { start := start.version + 1, latest := latest.version } with
  | error failure =>
      rw [listed] at planned
      exact (Op.Yields.bind_error planned).mono fun _ after => ⟨after.1, after.2⟩
  | ok versions =>
      rw [listed] at planned
      obtain rfl := Session.listed_eq_ok listed
      exact .bind planned fun both after =>
        finish_yields identity feed isCommit isLatest notAfter upTo ⟨after.1, after.2⟩

/-- A session that goes on from the marker of a commit handles the versions after it, and ends
with the marker of the latest commit.
-/
theorem InUse.resume_yields (identity : Identity) (feed : SoundFeed tree place provider)
    {latest : Commit}
    (told : latestVersion tree place = .ok latest.version)
    (isCommit : commit ∈ commitsOf tree place provider)
    (isLatest : latest ∈ commitsOf tree place provider)
    (upTo : commit.version ≤ latest.version) (h : InUse tree place provider both)
    : ((Source.ofLog tree identity).resume (Marker.ofUtc commit.timestamp)).Yields both
        ((·, Marker.ofUtc latest.timestamp)
          <$> Session.listed { start := commit.version + 1, latest := latest.version })
        (InUse tree place provider) :=
  h.catchUp_yields identity feed told isCommit isLatest rfl (resumes_of_mem isCommit)
    (Int.le_refl _) upTo

end Sessions

-----------------------------------------------------------------------------------------
-- Runs
-----------------------------------------------------------------------------------------

/-- What happens in a run: the log grows, or there is a session of the sync, with the source of
the session before or with a new one.
-/
inductive Event where
  | grow (after : Tree)
  | session (opensSource : Bool)

/-- How far a sync is. -/
structure Progress where
  /-- The directory as it is now. -/
  tree : Tree
  source : CommitLog × Phase
  marker : String
  /-- The versions that were handled, in all sessions. -/
  handled : List Int
  /-- The latest version when the last session ran. -/
  seen : Int

/-- (Event.treeAfter before event) is the directory after an event. -/
def Event.treeAfter (before : Tree) : Event → Tree
  | grow after => after
  | session _ => before

namespace Progress

/-- (opened settings base tree marker version) is a sync that begins after a version, with the
version's marker and with a new source.
-/
def opened (settings : Settings) (base : Path) (tree : Tree) (marker : String) (version : Int)
    : Progress :=
  { tree, source := (.ofBase settings base, .fresh), marker, handled := [], seen := version }

def after (settings : Settings) (base : Path) (identity : Identity) (progress : Progress)
    : Event → Except Failure Progress
  | .grow tree => return { progress with tree }
  | .session opensSource => do
    let source := if opensSource then (.ofBase settings base, .fresh) else progress.source
    let outcome := ((Source.ofLog progress.tree identity).resume progress.marker).run source
    let (handled, marker) ← outcome.result
    let seen ← latestVersion progress.tree (.ofBase settings base)
    return {
      progress with
        source := outcome.state
        marker
        handled := progress.handled ++ handled
        seen }

def run (settings : Settings) (base : Path) (identity : Identity) (progress : Progress)
    (events : List Event)
    : Except Failure Progress :=
  events.foldlM (after settings base identity) progress

end Progress

/-- (Feeds place provider tree events) says that the log only grows in a run that begins with a
tree, and that it is a sound feed throughout.
-/
inductive Feeds (place : Place) (provider : String) : Tree → List Event → Prop where
  | done {tree : Tree} : SoundFeed tree place provider → Feeds place provider tree []
  | grow {tree after : Tree} {rest : List Event} (added : List Int)
    : SoundFeed tree place provider
      → Grows place tree after added
      → Feeds place provider after rest
      → Feeds place provider tree (.grow after :: rest)
  | session {tree : Tree} {rest : List Event} (opensSource : Bool)
    : Feeds place provider tree rest → Feeds place provider tree (.session opensSource :: rest)

/-- (Correct settings base version progress) says that a sync that began after a version handled
all versions after it, up to the one that it saw last, each once and in order, and that it has
the marker of that version.
-/
structure Correct (settings : Settings) (base : Path) (version : Int) (progress : Progress)
    : Prop where
  inUse : InUse progress.tree (.ofBase settings base) settings.defaultProvider progress.source
  marker
    : ∃ commit ∈ commitsOf progress.tree (.ofBase settings base) settings.defaultProvider,
        commit.version = progress.seen ∧ progress.marker = Marker.ofUtc commit.timestamp
  begun : version ≤ progress.seen
  handled
    : progress.handled = Session.versions { start := version + 1, latest := progress.seen }

section Runs

variable {settings : Settings} {base : Path} {identity : Identity} {tree : Tree}
  {progress next : Progress} {version : Int} {events : List Event}

/-- A feed is sound before any of its events. -/
theorem Feeds.sound {place : Place} {provider : String} (h : Feeds place provider tree events)
    : SoundFeed tree place provider := by
  induction h with
  | done sound => exact sound
  | grow added sound _ _ _ => exact sound
  | session _ _ ih => exact ih

/-- A log that only grows has its commits at the end. -/
theorem Feeds.length_le {place : Place} {provider : String}
    (h : Feeds place provider tree events)
    : (committed tree place).length
      ≤ (committed (events.foldl Event.treeAfter tree) place).length := by
  induction h with
  | done _ => exact Nat.le_refl _
  | grow added _ grows _ ih =>
      refine Nat.le_trans ?_ ih
      rw [grows.listing, List.length_append]
      exact Nat.le_add_right _ _
  | session _ _ ih => exact ih

/-- A source that was opened is in use. -/
theorem inUse_opened (settings : Settings) (base : Path) (tree : Tree)
    : InUse tree (.ofBase settings base) settings.defaultProvider
        (.ofBase settings base, .fresh) :=
  ⟨agrees_ofBase settings base tree _, nofun⟩

/-- A session has the source of the session before, or a new one. -/
theorem InUse.ofSession {source : CommitLog × Phase} (opensSource : Bool)
    (h : InUse tree (.ofBase settings base) settings.defaultProvider source)
    : InUse tree (.ofBase settings base) settings.defaultProvider
        (if opensSource then (.ofBase settings base, .fresh) else source) := by
  split
  · exact inUse_opened settings base tree
  · exact h

/-- A sync stays correct when the log grows, since all its commits stay. -/
theorem Correct.grow {after : Tree} {added : List Int}
    (grows : Grows (.ofBase settings base) progress.tree after added)
    (h : Correct settings base version progress)
    : Correct settings base version { progress with tree := after } := by
  obtain ⟨⟨agrees, notClosed⟩, ⟨commit, isCommit, same, marker⟩, begun, handled⟩ := h
  exact ⟨⟨agrees.grows grows, notClosed⟩,
    ⟨commit, grows.mem_commitsOf isCommit, same, marker⟩, begun, handled⟩

/-- (progress.advance source latest) is a sync that handled all versions up to that of a commit. -/
def Progress.advance (progress : Progress) (source : CommitLog × Phase) (latest : Commit)
    : Progress :=
  { progress with
      source
      marker := Marker.ofUtc latest.timestamp
      handled := progress.handled
        ++ Session.versions { start := progress.seen + 1, latest := latest.version }
      seen := latest.version }

/-- A sync that handles what is pending up to the latest commit is correct as of that one. -/
theorem Correct.advance {source : CommitLog × Phase} {latest : Commit}
    (inUse : InUse progress.tree (.ofBase settings base) settings.defaultProvider source)
    (isLatest
      : latest ∈ commitsOf progress.tree (.ofBase settings base) settings.defaultProvider)
    (upTo : progress.seen ≤ latest.version) (h : Correct settings base version progress)
    : Correct settings base version (progress.advance source latest) where
  inUse := inUse
  marker := ⟨latest, isLatest, rfl, rfl⟩
  begun := Int.le_trans h.begun upTo
  handled := by
    have begun := h.begun
    show progress.handled ++ _ = _
    rw [h.handled, Session.versions_append (by omega) upTo]
    rfl

/-- A session of a correct sync leaves a correct sync. It fails only where there are more
commits than can be listed.
-/
theorem Correct.session (identity : Identity)
    (feed : SoundFeed progress.tree (.ofBase settings base) settings.defaultProvider)
    (opensSource : Bool) (h : Correct settings base version progress)
    : (∃ next,
        progress.after settings base identity (.session opensSource) = .ok next
        ∧ next.tree = progress.tree
        ∧ Correct settings base version next)
      ∨ (∃ failure,
          progress.after settings base identity (.session opensSource) = .error failure)
        ∧ maxListed < (committed progress.tree (.ofBase settings base)).length := by
  obtain ⟨commit, isCommit, same, marker⟩ := h.marker
  obtain ⟨latest, isLatest, told, upTo⟩ := exists_latest_of_mem isCommit
  have resumed := (h.inUse.ofSession opensSource).resume_yields identity feed told isCommit isLatest
    (upTo commit isCommit)
  rw [← marker] at resumed
  cases listed : Session.listed { start := commit.version + 1, latest := latest.version } with
  | error failure =>
      rw [listed] at resumed
      refine Or.inr ⟨⟨failure, ?_⟩,
        lt_length_committed feed.consecutive isCommit isLatest listed⟩
      rw [Progress.after, resumed.result_eq]
      rfl
  | ok versions =>
      rw [listed] at resumed
      obtain rfl := Session.listed_eq_ok listed
      have advanced := h.advance resumed.leaves isLatest (same ▸ upTo commit isCommit)
      refine Or.inl ⟨_, ?_, ?_, advanced⟩
      · rw [Progress.after, resumed.result_eq, told, same]
        rfl
      · rfl

/-- A sync that begins after a version, with the version's marker, is correct. -/
theorem correct_opened {marker : String}
    (feed : SoundFeed tree (.ofBase settings base) settings.defaultProvider)
    (starts
      : (((Source.ofLog tree identity).markerOf version).run
          (.ofBase settings base, .fresh)).result = .ok marker)
    : Correct settings base version (.opened settings base tree marker version) := by
  have inUse := inUse_opened settings base tree
  have asked
      : ((Source.ofLog tree identity).markerOf version).Yields (.ofBase settings base, .fresh)
          (historyAt tree (.ofBase settings base) settings.defaultProvider
            >>= (·.commitAt version) >>= Source.nextMarker) (fun _ => True) := by
    refine .seq (Q := fun _ => True) ?_ (fun _ _ => trivial) fun commit both _ _ =>
      .ofResult _ trivial
    apply Op.Yields.bind (inUse.ensureOpen _)
    intro both h
    exact ((CommitLog.commitAt_yields (fun _ => id) feed.log h.agrees).onFirst both.2).mono
      fun _ _ => trivial
  rw [asked.result_eq] at starts
  cases found : historyAt tree (.ofBase settings base) settings.defaultProvider
      >>= (·.commitAt version) with
  | error failure =>
      rw [found] at starts
      cases starts
  | ok commit =>
      obtain ⟨isCommit, same⟩ := mem_commitsOf_of_commitAt found
      rw [found] at starts
      have marked := (feed.nextMarker isCommit).symm.trans starts
      exact ⟨inUse, ⟨commit, isCommit, same, (Except.ok.inj marked).symm⟩, Int.le_refl _, by
        simp [Progress.opened, Session.versions, Session.pending]⟩

/-- A correct sync stays correct in every run on a sound feed. -/
theorem Correct.run (identity : Identity)
    (feeds : Feeds (.ofBase settings base) settings.defaultProvider tree events)
    (here : progress.tree = tree) (h : Correct settings base version progress)
    : (∃ last,
        progress.run settings base identity events = .ok last
        ∧ Correct settings base version last)
      ∨ (∃ failure, progress.run settings base identity events = .error failure)
        ∧ maxListed
          < (committed (events.foldl Event.treeAfter tree) (.ofBase settings base)).length := by
  induction feeds generalizing progress with
  | done _ => exact Or.inl ⟨progress, rfl, h⟩
  | @grow tree after rest added _ grows _ ih =>
      subst here
      have grown := h.grow grows
      exact ih rfl grown
  | @session tree rest opensSource later ih =>
      subst here
      rcases h.session identity later.sound opensSource with
        ⟨next, ended, same, correct⟩ | ⟨⟨failure, ended⟩, many⟩
      · have step : progress.run settings base identity (.session opensSource :: rest)
            = next.run settings base identity rest := by
          rw [Progress.run, List.foldlM_cons, ended]
          rfl
        rw [step]
        exact ih same correct
      · refine Or.inr ⟨⟨failure, ?_⟩, Nat.lt_of_lt_of_le many ?_⟩
        · rw [Progress.run, List.foldlM_cons, ended]
          rfl
        · exact later.length_le

/-- A sync that goes on from the marker of a version handles all later versions up to the one
that its last session saw, each once and in order, however the log grows between its sessions,
and whether they share a source or open new ones. It fails only where there are more commits
than can be listed.
-/
theorem handled_exactly_once {marker : String}
    (feeds : Feeds (.ofBase settings base) settings.defaultProvider tree events)
    (starts
      : (((Source.ofLog tree identity).markerOf version).run
          (.ofBase settings base, .fresh)).result = .ok marker)
    : (∃ last,
        (Progress.opened settings base tree marker version).run settings base identity events
          = .ok last
        ∧ last.handled
          = (List.range (last.seen - version).toNat).map fun (i : Nat) => version + 1 + i)
      ∨ (∃ failure,
          (Progress.opened settings base tree marker version).run settings base identity events
            = .error failure)
        ∧ maxListed
          < (committed (events.foldl Event.treeAfter tree) (.ofBase settings base)).length := by
  refine (correct_opened feeds.sound starts).run identity feeds rfl |>.imp_left ?_
  intro done
  rcases done with ⟨last, ended, correct⟩
  refine ⟨last, ended, ?_⟩
  have pending : (last.seen + 1 - (version + 1)).toNat = (last.seen - version).toNat := by omega
  rw [correct.handled, Session.versions, Session.pending, pending]

/-- The events of a run in which a log grows. -/
def sampleEvents : List Event :=
  [.session false, .grow sampleTree, .session true, .session false]

/-- The sample log is a sound feed. -/
theorem soundFeed_sampleTree
    : SoundFeed sampleTree topPlace "parquet" :=
  ⟨soundLog_sampleTree, by decide +kernel, by decide +kernel⟩

theorem feeds_sampleEvents
    : Feeds topPlace "parquet" (storeOf (filesOf sampleStart)) sampleEvents :=
  .session false (.grow (keys sampleRest) (by decide +kernel) grows_sampleTree
    (.session true (.session false (.done soundFeed_sampleTree))))

theorem handled_exactly_once_sampleEvents
    : ∃ last,
        (Progress.opened {} topPlace.base (storeOf (filesOf sampleStart)) "2023-11-14T22:13:20Z"
            0).run {} topPlace.base { basePath := "." } sampleEvents = .ok last
        ∧ last.handled
          = (List.range (last.seen - 0).toNat).map fun (i : Nat) => 0 + 1 + (i : Int) := by
  have starts
      : (((Source.ofLog (storeOf (filesOf sampleStart)) { basePath := "." }).markerOf 0).run
          (.ofBase {} topPlace.base, .fresh)).result = .ok "2023-11-14T22:13:20Z" := by
    decide +kernel
  rcases handled_exactly_once feeds_sampleEvents starts with ended | ⟨_, tooMany⟩
  · exact ended
  · exact absurd tooMany (by decide +kernel)

end Runs

end DeltaFeed.Feed
