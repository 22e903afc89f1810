import DeltaFeed.Proofs.Feed.Sessions

/-! The calls of a source. A call begins with the phase that it enters; what the reads of a source
keep of its log, and its session keeps when it gives actions, every call preserves.
-/

namespace DeltaFeed.Feed

open Log
open Store (Tree Path)
open Time (Timestamp)

/-- (phase.entered) is the phase once a call has begun. -/
def Phase.entered : Phase → Phase
  | fresh => ready
  | phase => phase

namespace Source

variable {ρ : Type} {source : Source ρ} {both : ρ × Phase}

-----------------------------------------------------------------------------------------
-- Calls
-----------------------------------------------------------------------------------------

/-- What can be asked of a source. -/
inductive Call : Type → Type where
  | tableAt (version : Int) : Call Table
  | currentTable : Call Table
  | currentSnapshot : Call Snapshot
  | commitAt (version : Int) : Call Commit
  | backlog (instant : Value) : Call (List Int)
  | change (version : Int) : Call TableChange
  | isSafeFrom (instant : Value) : Call Bool
  | close : Call Unit

namespace Call

variable {α : Type}

def run (source : Source ρ) : Call α → Op (ρ × Phase) α
  | tableAt version => source.tableAt version
  | currentTable => source.currentTable
  | currentSnapshot => source.currentSnapshot
  | commitAt version => source.commitAt version
  | backlog instant => source.backlog instant
  | change version => source.change version
  | isSafeFrom instant => source.isSafeFrom instant
  | close => source.close

def closes : Call α → Bool
  | close => true
  | _ => false

/-- (call.plans) holds of the call that may bring a new session into force. -/
def plans : Call α → Bool
  | backlog _ => true
  | _ => false

/-- (call.returned outcome) is the backlog that a call returned, with the phase that it left. -/
def returned : Call α → Outcome (ρ × Phase) α → Option (List Int × Phase)
  | backlog _, outcome => outcome.result.toOption.map fun versions => (versions, outcome.state.2)
  | _, _ => none

end Call

/-- A call on a source that is not closed goes on in the phase that it enters. -/
theorem run_opened {α : Type} {next : Unit → Op (ρ × Phase) α} (notClosed : both.2 ≠ .closed)
    : (source.ensureOpen >>= next).run both = (next ()).run (both.1, both.2.entered) := by
  obtain ⟨s, phase⟩ := both
  cases phase with
  | closed => exact absurd rfl notClosed
  | fresh | ready | planned => rfl

/-- A call on a closed source fails, and neither reads the log nor changes anything. -/
theorem run_closed {α : Type} (source : Source ρ) (closed : both.2 = .closed) (call : Call α)
    (other : call.closes = false)
    : (call.run source).run both
      = { result := .error source.closedFailure, state := both, entries := [] } := by
  obtain ⟨s, phase⟩ := both
  subst closed
  cases call with
  | close => cases other
  | _ => rfl

/-- A call on an open source goes on in the phase that was entered. -/
theorem yields_opened {α : Type} {next : Unit → Op (ρ × Phase) α} {result : Except Failure α}
    {Q : ρ × Phase → Prop} (notClosed : both.2 ≠ .closed)
    (h : (next ()).Yields (both.1, both.2.entered) result Q)
    : (source.ensureOpen >>= next).Yields both result Q := by
  constructor
  · rw [run_opened notClosed]
    exact h.result_eq
  · rw [run_opened notClosed]
    exact h.leaves

/-- Closing a closed source does nothing. -/
theorem close_closed (closed : both.2 = .closed)
    : source.close.run both = { result := .ok (), state := both, entries := [] } := by
  obtain ⟨s, phase⟩ := both
  subst closed
  rfl

/-- Closing closes, also where the log cannot be let go of. -/
theorem state_close (source : Source ρ) (notClosed : both.2 ≠ .closed)
    : (source.close.run both).state = ((source.reader.close.run both.1).state, .closed) := by
  rw [close, Op.run_bind_ok (a := both.2) rfl]
  dsimp only
  rw [if_neg notClosed, Op.run_bind_ok (a := ()) rfl]
  cases ended : (source.reader.close.run both.1).result with
  | error failure =>
      have failed
          : ((Op.onFirst source.reader.close).run (both.1, Phase.closed)).result
            = .error failure :=
        ended
      exact congrArg Outcome.state (Op.run_bind_error failed)
  | ok a =>
      have let_ : ((Op.onFirst source.reader.close).run (both.1, Phase.closed)).result = .ok a :=
        ended
      exact congrArg Outcome.state (Op.run_bind_ok let_)

/-- A source is closed after it is closed. -/
theorem phase_close (source : Source ρ) (both : ρ × Phase)
    : (source.close.run both).state.2 = .closed := by
  by_cases closed : both.2 = .closed
  · rw [close_closed closed]
    exact closed
  · rw [state_close source closed]

-----------------------------------------------------------------------------------------
-- Backlogs
-----------------------------------------------------------------------------------------

/-- A session is planned with nothing fetched. -/
theorem plan_ensures {reader : Reader ρ} {Q : ρ → Prop} {s : ρ}
    (active : ∀ time, (reader.activeCommit time true).Preserves Q)
    (latest : reader.latest.Preserves Q) (instant : Value) (h : Q s)
    : (plan reader instant).Ensures s (·.fetched = []) Q := by
  refine .bind (R := fun _ => True) (.ofResult (fun _ _ => trivial) h) fun utc s _ h => ?_
  refine .bind (R := fun _ => True) ⟨fun _ _ => trivial, active utc s h⟩ fun commit s _ h => ?_
  refine .bind (R := (·.fetched = [])) ?_ fun session s new h => ?_
  · refine .bind (R := fun _ => True) ⟨fun _ _ => trivial, latest s h⟩ fun latest s _ h => ?_
    refine .bind (R := fun _ => True) (.ofResult (fun _ _ => trivial) h) fun _ s _ h => ?_
    exact .of_yields (.bind_tell (.pure _ h)) rfl
  · exact .of_yields (.bind_tell (.pure _ h)) new

/-- A backlog is planned from an instant, once it is unwrapped if need be. -/
theorem backlog_unwrapped (source : Source ρ) (instant : Value)
    : ∃ unwrapped,
        source.backlog instant = do
          source.ensureOpen
          let session ← .onFirst (plan source.reader unwrapped)
          enter (.planned session)
          return session.versions := by
  cases instant with
  | lastSync t => exact ⟨.moment t, rfl⟩
  | _ => exact ⟨_, rfl⟩

/-- A backlog either fails and leaves the session in force, or it is that of a new session. -/
theorem backlog_cases (source : Source ρ) (instant : Value) (notClosed : both.2 ≠ .closed)
    : (∃ failure,
        (source.backlog instant).Yields both (.error failure) (·.2 = both.2.entered))
      ∨ ∃ session : Session,
          session.fetched = []
          ∧ (source.backlog instant).Yields both (.ok session.versions)
              (·.2 = .planned session) := by
  obtain ⟨unwrapped, same⟩ := backlog_unwrapped source instant
  rw [same]
  cases planned : ((plan source.reader unwrapped).run both.1).result with
  | error failure =>
      left
      exact ⟨failure, yields_opened notClosed (.bind_error ⟨planned, rfl⟩)⟩
  | ok session =>
      right
      have new : session.fetched = [] :=
        (plan_ensures (Q := fun _ => True) (fun _ _ _ => trivial) (fun _ _ => trivial) unwrapped
          trivial).value session planned
      refine ⟨session, new, yields_opened notClosed ?_⟩
      exact .bind (Q := fun _ => True) ⟨planned, trivial⟩ fun _ _ => ⟨rfl, rfl⟩

-----------------------------------------------------------------------------------------
-- What calls preserve
-----------------------------------------------------------------------------------------

/-- (source.Keeps Q S) says that the reads of a source keep its log in Q, and that the phase of the
source stays in S when it is entered and when its session gives actions.
-/
structure Keeps (source : Source ρ) (Q : ρ → Prop) (S : Phase → Prop) : Prop where
  activeCommit (time : Timestamp) : (source.reader.activeCommit time true).Preserves Q
  latest : source.reader.latest.Preserves Q
  commitAt (v : Int) : (source.reader.commitAt v).Preserves Q
  metadataAt (v : Int) : (source.reader.metadataAt v).Preserves Q
  actions (v : Int) : (source.reader.actions v).Preserves Q
  files (v : Int) (table : Table) : (source.lister v table).Preserves Q
  entered (phase : Phase) (h : S phase) : S phase.entered
  gives (v : Int) (s : ρ) (session : Session) (h : Q s) (inForce : S (.planned session))
    : S (.planned (session.after v ((source.reader.actions v).run s).result))

namespace Keeps

variable {α : Type} {Q : ρ → Prop} {S : Phase → Prop}

/-- A call that begins by entering the source preserves what its rest does. -/
theorem opened {next : Unit → Op (ρ × Phase) α} (keeps : source.Keeps Q S)
    (h : (next ()).Preserves fun both => Q both.1 ∧ S both.2)
    : (source.ensureOpen >>= next).Preserves fun both => Q both.1 ∧ S both.2 := by
  rintro ⟨s, phase⟩ both
  by_cases closed : phase = .closed
  · subst closed
    exact both
  · rw [run_opened closed]
    exact h _ ⟨both.1, keeps.entered phase both.2⟩

/-- What preserves a property of the log preserves it beside any phase. -/
theorem onFirst {op : Op ρ α} (h : op.Preserves Q)
    : (Op.onFirst op).Preserves fun both : ρ × Phase => Q both.1 ∧ S both.2 :=
  fun _ both => ⟨h _ both.1, both.2⟩

/-- Asking for the definition of a table keeps the log. -/
theorem projectTable (keeps : source.Keeps Q S) (v : Int)
    : (projectTable source.reader source.identity v).Preserves Q :=
  .bind (keeps.metadataAt v) fun _ => .bind (keeps.commitAt v) fun _ => .ofResult _

/-- Asking for a snapshot keeps the log. -/
theorem projectSnapshot (keeps : source.Keeps Q S) (v : Int) (sourceIdentifier : Option String)
    : (projectSnapshot source.reader source.lister source.identity v sourceIdentifier).Preserves
        Q := by
  refine .bind (keeps.projectTable v) fun table => ?_
  have listed : (listFiles source.lister v table).Preserves Q := by
    refine .bind (keeps.files v table).attempt fun ended => ?_
    cases ended with
    | error cause => exact .bind (.tell _ _ _) fun _ _ h => h
    | ok files => exact .bind (.tell _ _ _) fun _ => .pure _
  exact .bind listed fun _ => .pure _

/-- Asking for a backlog keeps the log, and leaves a session that is new or the phase as it was. -/
theorem backlog (keeps : source.Keeps Q S)
    (begins : ∀ session : Session, session.fetched = [] → S (.planned session)) (instant : Value)
    : (source.backlog instant).Preserves fun both => Q both.1 ∧ S both.2 := by
  obtain ⟨unwrapped, same⟩ := backlog_unwrapped source instant
  rw [same]
  refine keeps.opened fun both h => ?_
  have planned := plan_ensures keeps.activeCommit keeps.latest unwrapped h.1
  have lifted
      : (Op.onFirst (plan source.reader unwrapped)).Ensures both (·.fetched = [])
          fun both => Q both.1 ∧ S both.2 :=
    ⟨planned.value, planned.leaves, h.2⟩
  refine (lifted.bind (T := fun _ => True) fun session both new h => ?_).leaves
  exact ⟨fun _ _ => trivial, h.1, begins session new⟩

/-- Every call that does not close a source preserves what its reads and its session keep. -/
theorem run (keeps : source.Keeps Q S) (call : Call α) (stays : call.closes = false)
    (begins
      : call.plans = true → ∀ session : Session, session.fetched = [] → S (.planned session))
    : (call.run source).Preserves fun both => Q both.1 ∧ S both.2 := by
  have table (v : Int) : (source.tableAt v).Preserves fun both => Q both.1 ∧ S both.2 :=
    keeps.opened (onFirst (keeps.projectTable v))
  cases call with
  | close => cases stays
  | backlog instant => exact keeps.backlog (begins rfl) instant
  | tableAt v => exact table v
  | commitAt v => exact keeps.opened (onFirst (keeps.commitAt v))
  | currentTable => exact keeps.opened (.bind (onFirst keeps.latest) table)
  | isSafeFrom instant =>
      refine keeps.opened (onFirst ?_)
      exact .bind (.ofResult _) fun utc => .bind (keeps.activeCommit utc) fun _ => .pure _
  | currentSnapshot =>
      refine keeps.opened (.bind (onFirst keeps.latest) fun v => ?_)
      exact .bind (.tell _ _ _) fun _ => onFirst (keeps.projectSnapshot v _)
  | change v =>
      have gives : (source.sessionActions v).Preserves fun both => Q both.1 ∧ S both.2 :=
        Source.sessionActions_preserves fun s session h =>
          ⟨keeps.actions v s h.1, keeps.gives v s session h.1 h.2⟩
      refine keeps.opened (.bind gives fun actions => ?_)
      refine .bind (onFirst (keeps.projectTable v)) fun table => ?_
      exact .of_yields fun _ h => Change.extract_yields v table actions h

end Keeps

end Source

/-- The reads of a source over a sound log keep the log in agreement with its files. -/
theorem keeps_ofLog {tree : Tree} {place : Place} {provider : String} {S : Phase → Prop}
    (identity : Identity) (sound : SoundLog tree place provider)
    (entered : ∀ phase, S phase → S phase.entered)
    (gives
      : ∀ v log session, Agrees tree place provider (fun _ => False) log
        → S (.planned session)
        → S (.planned (session.after v ((CommitLog.actions tree v).run log).result)))
    : (Source.ofLog tree identity).Keeps (Agrees tree place provider fun _ => False) S where
  activeCommit time _ h :=
    (CommitLog.activeCommit_yields (fun _ _ => id) sound h time true).leaves
  latest _ h := (CommitLog.latest_yields h).leaves
  commitAt v _ h := (h.commitAt_yields (fun _ _ => id) sound v).leaves
  metadataAt v := Agrees.metadataAt_preserves (fun _ _ => id) sound v
  actions v := Agrees.actions_preserves v
  files v table := .bind (Agrees.listing_preserves (fun _ _ => id) v table) fun _ _ h => h
  entered := entered
  gives := gives

end DeltaFeed.Feed
