import DeltaFeed.Proofs.Feed.Completeness
import DeltaFeed.Proofs.Feed.ExactlyOnce

/-! A sync that moves its marker back by some hours before a session. Each session begins at the
version after the last one that was handled, or before it; so commits may be handled again, and
none is skipped, whatever the hours are and however the log grows.
-/

namespace DeltaFeed.Feed

open Log
open Store (Tree Path)
open Time (Timestamp Amount)

-----------------------------------------------------------------------------------------
-- Sessions that begin earlier
-----------------------------------------------------------------------------------------

section Sessions

variable {tree : Tree} {place : Place} {provider : String} {both : CommitLog × Phase}
  {commit start : Commit} {hours : Amount} {now : Timestamp}

/-- A sync from the instant of a commit goes on after that commit. -/
theorem exists_precedes_of_mem (isCommit : commit ∈ commitsOf tree place provider)
    : ∃ first, Precedes tree place provider commit.timestamp first commit := by
  obtain ⟨first, active, h⟩ :=
    exists_precedes provider (List.ne_nil_of_mem (version_mem_committed isCommit)) commit.timestamp
  obtain rfl : active = commit :=
    Except.ok.inj (h.resumes.symm.trans (resumes_of_mem isCommit))
  exact ⟨first, h⟩

/-- From the instant of a commit that is moved back, a sync goes on after that commit or after an
earlier one; after that commit if the hours are not positive.
-/
theorem exists_start (consecutive : Consecutive (committed tree place))
    (isCommit : commit ∈ commitsOf tree place provider) (notLater : now ≤ commit.timestamp)
    (unmoved : hours.isPositive = false → now = commit.timestamp)
    : ∃ start ∈ commitsOf tree place provider,
        Resumes tree place provider now start
        ∧ start.version ≤ commit.version
        ∧ (hours.isPositive = false → start.version = commit.version) := by
  obtain ⟨first, h⟩ := exists_precedes_of_mem isCommit
  obtain ⟨first', start, h'⟩ :=
    exists_precedes provider (List.ne_nil_of_mem (version_mem_committed isCommit)) now
  obtain rfl : first' = first := Option.some.inj (h'.begins.symm.trans h.begins)
  refine ⟨start, h'.isCommit, h'.resumes, h'.version_le consecutive notLater h, ?_⟩
  intro none
  have resumes := h'.resumes
  rw [unmoved none] at resumes
  rw [Except.ok.inj (resumes.symm.trans (resumes_of_mem isCommit))]

end Sessions

-----------------------------------------------------------------------------------------
-- Runs
-----------------------------------------------------------------------------------------

/-- What happens in a run: the log grows, or there is a session of the sync, with the source of
the session before or with a new one, that moves the marker back by some hours.
-/
inductive Turn where
  | grow (after : Tree)
  | sync (opensSource : Bool) (hours : Amount)

/-- (turn.event) is what happens apart from the hours. -/
def Turn.event : Turn → Event
  | grow after => .grow after
  | sync opensSource _ => .session opensSource

/-- A session of a run: by how much it moved the marker back, and the versions that it handled. -/
structure Pass where
  hours : Amount
  versions : List Int

/-- (Handled passes v) says that a version was handled in one of some sessions. -/
def Handled (passes : List Pass) (v : Int) : Prop :=
  ∃ pass ∈ passes, v ∈ pass.versions

/-- What a sync did so far. -/
structure Ledger where
  /-- The directory as it is now. -/
  tree : Tree
  source : CommitLog × Phase
  marker : String
  /-- The sessions, in order. -/
  passes : List Pass
  /-- The latest version when the last session ran. -/
  seen : Int

/-- (turn.Subtracts marker) says that the hours of a session can be subtracted from the instant of
a marker.
-/
def Turn.Subtracts (marker : String) : Turn → Prop
  | grow _ => True
  | sync _ hours => (Marker.readText marker >>= (Marker.movedBack · hours)).isOk = true

instance (marker : String) : (turn : Turn) → Decidable (turn.Subtracts marker)
  | .grow _ => inferInstanceAs (Decidable True)
  | .sync _ _ => inferInstanceAs (Decidable (_ = true))

namespace Ledger

/-- (opened settings base tree marker version) is a sync that begins after a version, with the
version's marker and with a new source.
-/
def opened (settings : Settings) (base : Path) (tree : Tree) (marker : String) (version : Int)
    : Ledger :=
  { tree, source := (.ofBase settings base, .fresh), marker, passes := [], seen := version }

def after (settings : Settings) (base : Path) (identity : Identity) (ledger : Ledger)
    : Turn → Except Failure Ledger
  | .grow tree => return { ledger with tree }
  | .sync opensSource hours => do
    let source := if opensSource then (.ofBase settings base, .fresh) else ledger.source
    let outcome := ((Source.ofLog ledger.tree identity).catchUp ledger.marker hours).run source
    let (versions, marker) ← outcome.result
    let seen ← latestVersion ledger.tree (.ofBase settings base)
    return {
      ledger with
        source := outcome.state
        marker
        passes := ledger.passes ++ [{ hours, versions }]
        seen }

def run (settings : Settings) (base : Path) (identity : Identity) (ledger : Ledger)
    (turns : List Turn)
    : Except Failure Ledger :=
  turns.foldlM (after settings base identity) ledger

/-- (ledger.Subtracts settings base identity turns) says that in every session of a run the hours
can be subtracted from the instant of the marker that the sync has then.
-/
def Subtracts (settings : Settings) (base : Path) (identity : Identity)
    : Ledger → List Turn → Prop
  | _, [] => True
  | ledger, turn :: rest =>
    turn.Subtracts ledger.marker
      ∧ ∀ next ∈ (ledger.after settings base identity turn).toOption,
          Subtracts settings base identity next rest

instance decidableSubtracts (settings : Settings) (base : Path) (identity : Identity)
    : (ledger : Ledger) → (turns : List Turn)
      → Decidable (ledger.Subtracts settings base identity turns)
  | _, [] => inferInstanceAs (Decidable True)
  | ledger, turn :: rest =>
    have (next : Ledger) : Decidable (Subtracts settings base identity next rest) :=
      decidableSubtracts settings base identity next rest
    inferInstanceAs (Decidable (turn.Subtracts ledger.marker
      ∧ ∀ next ∈ (ledger.after settings base identity turn).toOption,
          Subtracts settings base identity next rest))

/-- (ledger.advance source hours start latest) is a sync after a session that handled all versions
after a start, up to the latest one.
-/
def advance (ledger : Ledger) (source : CommitLog × Phase) (hours : Amount)
    (start latest : Commit)
    : Ledger :=
  let versions := Session.versions { start := start.version + 1, latest := latest.version }
  { ledger with
      source
      marker := Marker.ofUtc latest.timestamp
      passes := ledger.passes ++ [{ hours, versions }]
      seen := latest.version }

end Ledger

/-- (pass.Continues version earlier) says how a session goes on from earlier ones in a sync that
began after a version: it handles consecutive versions that begin at the first version that was not
handled yet or before it, and no version again if its hours are not positive.
-/
structure Pass.Continues (version : Int) (earlier : List Pass) (pass : Pass) : Prop where
  consecutive : Consecutive pass.versions
  skipsNone
    : ∀ first ∈ pass.versions.head?, ∀ v, version < v → ¬Handled earlier v → first ≤ v
  repeatsNone
    : pass.hours.isPositive = false → ∀ v ∈ pass.versions, version < v ∧ ¬Handled earlier v

/-- (CaughtUp settings base version ledger) says that a sync that began after a version handled,
of the versions after it, exactly those up to the one that it saw last, that it has the marker of
that one, and that each of its sessions went on from those before.
-/
structure CaughtUp (settings : Settings) (base : Path) (version : Int) (ledger : Ledger)
    : Prop where
  inUse : InUse ledger.tree (.ofBase settings base) settings.defaultProvider ledger.source
  marker
    : ∃ commit ∈ commitsOf ledger.tree (.ofBase settings base) settings.defaultProvider,
        commit.version = ledger.seen ∧ ledger.marker = Marker.ofUtc commit.timestamp
  begun : version ≤ ledger.seen
  handled_iff : ∀ v, version < v → (Handled ledger.passes v ↔ v ≤ ledger.seen)
  passes : ∀ earlier pass, earlier ++ [pass] <+: ledger.passes → pass.Continues version earlier

section Runs

variable {settings : Settings} {base : Path} {identity : Identity} {tree : Tree}
  {ledger : Ledger} {version : Int} {turns : List Turn} {hours : Amount} {start latest : Commit}

theorem handled_append_singleton {passes : List Pass} {pass : Pass} {v : Int}
    : Handled (passes ++ [pass]) v ↔ Handled passes v ∨ v ∈ pass.versions := by
  simp only [Handled, List.mem_append, List.mem_singleton, or_and_right, exists_or,
    exists_eq_left]

/-- A sync stays caught up when the log grows, since all its commits stay. -/
theorem CaughtUp.grow {after : Tree} {added : List Int}
    (grows : Grows (.ofBase settings base) ledger.tree after added)
    (h : CaughtUp settings base version ledger)
    : CaughtUp settings base version { ledger with tree := after } := by
  obtain ⟨⟨agrees, notClosed⟩, ⟨commit, isCommit, same, marker⟩, begun, handled, passes⟩ := h
  exact ⟨⟨agrees.grows grows, notClosed⟩,
    ⟨commit, grows.mem_commitsOf isCommit, same, marker⟩, begun, handled, passes⟩

/-- A session that begins after a version that was seen continues the sessions before. -/
theorem CaughtUp.continues (latest : Commit) (notAfter : start.version ≤ ledger.seen)
    (unmoved : hours.isPositive = false → start.version = ledger.seen)
    (h : CaughtUp settings base version ledger)
    : Pass.Continues version ledger.passes
        { hours
          versions :=
            Session.versions { start := start.version + 1, latest := latest.version } } where
  consecutive := Session.consecutive_versions _
  skipsNone first begins v above unhandled := by
    rw [Session.head?_versions, Option.mem_ite_none_right] at begins
    have atStart := Option.some.inj begins.2
    have notSeen : ¬v ≤ ledger.seen := mt (h.handled_iff v above).mpr unhandled
    dsimp only at atStart
    omega
  repeatsNone none v member := by
    have begun := h.begun
    have fromStart := (Session.mem_versions.mp member).1
    have same := unmoved none
    dsimp only at fromStart
    have above : version < v := by omega
    rw [h.handled_iff v above]
    exact ⟨above, by omega⟩

/-- A session that goes on from the last one, or from further back, brings a sync up to the latest
commit.
-/
theorem CaughtUp.advance (hours : Amount) {source : CommitLog × Phase}
    (inUse : InUse ledger.tree (.ofBase settings base) settings.defaultProvider source)
    (isLatest : latest ∈ commitsOf ledger.tree (.ofBase settings base) settings.defaultProvider)
    (notAfter : start.version ≤ ledger.seen)
    (unmoved : hours.isPositive = false → start.version = ledger.seen)
    (upTo : ledger.seen ≤ latest.version) (h : CaughtUp settings base version ledger)
    : CaughtUp settings base version (ledger.advance source hours start latest) where
  inUse := inUse
  marker := ⟨latest, isLatest, rfl, rfl⟩
  begun := Int.le_trans h.begun upTo
  handled_iff v above := by
    show Handled (ledger.passes ++ [_]) v ↔ v ≤ latest.version
    rw [handled_append_singleton, h.handled_iff v above, Session.mem_versions]
    dsimp only
    omega
  passes earlier pass within := by
    rcases List.prefix_concat_iff.mp within with all | before
    · obtain ⟨rfl, same⟩ := List.append_inj' all rfl
      obtain rfl := List.singleton_inj.mp same
      exact h.continues latest notAfter unmoved
    · exact h.passes earlier pass before

/-- A session leaves a sync that is caught up in the same way. It fails only where there are more
commits than can be listed.
-/
theorem CaughtUp.sync (identity : Identity)
    (feed : SoundFeed ledger.tree (.ofBase settings base) settings.defaultProvider)
    {opensSource : Bool} (subtracts : (Turn.sync opensSource hours).Subtracts ledger.marker)
    (h : CaughtUp settings base version ledger)
    : (∃ next,
        ledger.after settings base identity (.sync opensSource hours) = .ok next
        ∧ next.tree = ledger.tree
        ∧ CaughtUp settings base version next)
      ∨ (∃ failure,
          ledger.after settings base identity (.sync opensSource hours) = .error failure)
        ∧ maxListed < (committed ledger.tree (.ofBase settings base)).length := by
  obtain ⟨commit, isCommit, same, marker⟩ := h.marker
  obtain ⟨latest, isLatest, told, upTo⟩ := exists_latest_of_mem isCommit
  obtain ⟨now, moved⟩ : ∃ now, Marker.movedBack commit.timestamp hours = .ok now := by
    have read := isOk_iff.mp subtracts
    rw [marker, feed.readText isCommit] at read
    exact read
  have notLater := (feed.movedBack isCommit moved).1
  have unmoved (none : hours.isPositive = false) : now = commit.timestamp := by
    rw [Marker.movedBack, none] at moved
    exact (Except.ok.inj moved).symm
  obtain ⟨start, isStart, resumes, notAfter, atCommit⟩ :=
    exists_start feed.consecutive isCommit notLater unmoved
  have caught := (h.inUse.ofSession opensSource).catchUp_yields identity feed told isCommit isLatest
    moved resumes notAfter (upTo commit isCommit)
  rw [← marker] at caught
  cases listed : Session.listed { start := start.version + 1, latest := latest.version } with
  | error failure =>
      rw [listed] at caught
      refine Or.inr ⟨⟨failure, ?_⟩,
        lt_length_committed feed.consecutive isStart isLatest listed⟩
      rw [Ledger.after, caught.result_eq]
      rfl
  | ok versions =>
      rw [listed] at caught
      obtain rfl := Session.listed_eq_ok listed
      have advanced := h.advance hours caught.leaves isLatest (same ▸ notAfter)
        (fun none => same ▸ atCommit none) (same ▸ upTo commit isCommit)
      refine Or.inl ⟨_, ?_, ?_, advanced⟩
      · rw [Ledger.after, caught.result_eq, told]
        rfl
      · rfl

/-- A sync that begins after a version, with the version's marker, is caught up. -/
theorem caughtUp_opened {marker : String}
    (feed : SoundFeed tree (.ofBase settings base) settings.defaultProvider)
    (starts
      : (((Source.ofLog tree identity).markerOf version).run
          (.ofBase settings base, .fresh)).result = .ok marker)
    : CaughtUp settings base version (.opened settings base tree marker version) where
  inUse := inUse_opened settings base tree
  marker := (correct_opened feed starts).marker
  begun := Int.le_refl _
  handled_iff v above := by
    refine iff_of_false ?_ (Int.not_le.mpr above)
    rintro ⟨pass, none, _⟩
    cases none
  passes earlier pass within := by
    have empty := List.prefix_nil.mp within
    simp at empty

/-- A sync that is caught up stays so in every run on a sound feed. -/
theorem CaughtUp.run (identity : Identity)
    (feeds : Feeds (.ofBase settings base) settings.defaultProvider ledger.tree
      (turns.map Turn.event))
    (subtracts : ledger.Subtracts settings base identity turns)
    (h : CaughtUp settings base version ledger)
    : (∃ last,
        ledger.run settings base identity turns = .ok last
        ∧ CaughtUp settings base version last)
      ∨ (∃ failure, ledger.run settings base identity turns = .error failure)
        ∧ maxListed
          < (committed ((turns.map Turn.event).foldl Event.treeAfter ledger.tree)
              (.ofBase settings base)).length := by
  induction turns generalizing ledger with
  | nil => exact Or.inl ⟨ledger, rfl, h⟩
  | cons turn rest ih =>
      obtain ⟨here, later⟩ := subtracts
      cases turn with
      | grow tree =>
          cases feeds with
          | grow added _ grows feeds =>
              exact @ih { ledger with tree } feeds (later _ rfl) (h.grow grows)
      | sync opensSource hours =>
          cases feeds with
          | session _ feeds =>
              rcases h.sync identity feeds.sound here with
                ⟨next, ended, same, caughtUp⟩ | ⟨⟨failure, ended⟩, many⟩
              · have step : ledger.run settings base identity (.sync opensSource hours :: rest)
                    = next.run settings base identity rest := by
                  rw [Ledger.run, List.foldlM_cons, ended]
                  rfl
                rw [step, ← same]
                exact ih (same ▸ feeds) (later next (by rw [ended]; rfl)) caughtUp
              · refine Or.inr ⟨⟨failure, ?_⟩, Nat.lt_of_lt_of_le many feeds.length_le⟩
                rw [Ledger.run, List.foldlM_cons, ended]
                rfl

/-- A sync that goes on from the marker of a version, and in each of its sessions moves the marker
back by some hours, handles all later versions up to the one that its last session saw. Each
session handles consecutive versions that begin at the first version that was not handled yet or
before it, and none again if its hours are not positive. A run fails only where there are more
commits than can be listed.
-/
theorem handled_at_least_once {marker : String}
    (feeds : Feeds (.ofBase settings base) settings.defaultProvider tree (turns.map Turn.event))
    (starts
      : (((Source.ofLog tree identity).markerOf version).run
          (.ofBase settings base, .fresh)).result = .ok marker)
    (subtracts
      : (Ledger.opened settings base tree marker version).Subtracts settings base identity turns)
    : (∃ last,
        (Ledger.opened settings base tree marker version).run settings base identity turns
          = .ok last
        ∧ (∀ v, version < v → v ≤ last.seen → Handled last.passes v)
        ∧ ∀ earlier pass,
            earlier ++ [pass] <+: last.passes → pass.Continues version earlier)
      ∨ (∃ failure,
          (Ledger.opened settings base tree marker version).run settings base identity turns
            = .error failure)
        ∧ maxListed
          < (committed ((turns.map Turn.event).foldl Event.treeAfter tree)
              (.ofBase settings base)).length := by
  rcases (caughtUp_opened feeds.sound starts).run identity feeds subtracts with
    ⟨last, ended, caughtUp⟩ | failed
  · exact Or.inl ⟨last, ended, fun v above upTo => (caughtUp.handled_iff v above).mpr upTo,
      caughtUp.passes⟩
  · exact Or.inr failed

/-- The turns of a run in which a log grows, and whose sessions move the marker back by two hours,
not at all, and by half an hour.
-/
def sampleTurns : List Turn :=
  [.sync false (.whole 2), .grow sampleTree, .sync true (.whole 0),
    .sync false (.float (.finite false 1 (-1)))]

theorem handled_at_least_once_sampleTurns
    : ∃ last,
        (Ledger.opened {} topPlace.base (storeOf (filesOf sampleStart)) "2023-11-14T22:13:20Z"
          0).run {} topPlace.base { basePath := "." } sampleTurns = .ok last
        ∧ (∀ v, 0 < v → v ≤ last.seen → Handled last.passes v)
        ∧ ∀ earlier pass, earlier ++ [pass] <+: last.passes → pass.Continues 0 earlier := by
  have starts
      : (((Source.ofLog (storeOf (filesOf sampleStart)) { basePath := "." }).markerOf 0).run
          (.ofBase {} topPlace.base, .fresh)).result = .ok "2023-11-14T22:13:20Z" := by
    decide +kernel
  have feeds : Feeds topPlace "parquet" (storeOf (filesOf sampleStart))
      (sampleTurns.map Turn.event) :=
    feeds_sampleEvents
  rcases handled_at_least_once feeds starts (by decide +kernel) with ended | ⟨_, tooMany⟩
  · exact ended
  · exact absurd tooMany (by decide +kernel)

end Runs

end DeltaFeed.Feed
