import DeltaFeed.Proofs.Feed.Calls
import DeltaFeed.Proofs.Log.Failures

/-! The life of a source. Its phase follows from the calls that were made, whatever the log does in
between and however the calls end: the session in force is that of the backlog that was returned
last, and once the source is closed it stays closed.
-/

namespace DeltaFeed.Feed

open Log

namespace Source

variable {ρ : Type} {source : Source ρ} {both : ρ × Phase}

-----------------------------------------------------------------------------------------
-- The session in force
-----------------------------------------------------------------------------------------

/-- (InForce last phase) says that the phase of a source follows from the backlog that was returned
last, with the phase that its call left: without a backlog there is no session, and else the session
in force is the one that was planned with the backlog, which has fetched actions since.
-/
def InForce (last : Option (List Int × Phase)) (phase : Phase) : Prop :=
  match last with
  | none => phase = .fresh ∨ phase = .ready
  | some (versions, left) =>
    ∃ planned session : Session,
      left = .planned planned
      ∧ planned.versions = versions
      ∧ planned.fetched = []
      ∧ phase = .planned session
      ∧ session.start = planned.start
      ∧ session.latest = planned.latest

variable {last : Option (List Int × Phase)}

/-- A source is not closed as long as a backlog is in force. -/
theorem InForce.notClosed (h : InForce last both.2)
    : both.2 ≠ .closed := by
  intro closed
  rw [closed] at h
  cases last with
  | none => rcases h with fresh | ready <;> contradiction
  | some entry =>
      obtain ⟨_, _, _, _, _, planned, _⟩ := h
      cases planned

/-- Entering a source leaves the backlog in force. -/
theorem InForce.entered {phase : Phase} (h : InForce last phase)
    : InForce last phase.entered := by
  cases last with
  | none =>
      rcases h with rfl | rfl
      · exact .inr rfl
      · exact .inr rfl
  | some entry =>
      obtain ⟨planned, session, left, versions, fetched, rfl, range⟩ := h
      exact ⟨planned, session, left, versions, fetched, rfl, range⟩

/-- No read of the log changes which backlog is in force. -/
theorem keeps_inForce (last : Option (List Int × Phase)) (source : Source ρ)
    : source.Keeps (fun _ => True) (InForce last) where
  activeCommit _ _ _ := trivial
  latest _ _ := trivial
  commitAt _ _ _ := trivial
  metadataAt _ _ _ := trivial
  actions _ _ _ := trivial
  files _ _ _ _ := trivial
  entered _ h := h.entered
  gives v s session _ h := by
    cases last with
    | none => rcases h with fresh | ready <;> contradiction
    | some entry =>
        obtain ⟨planned, session, left, versions, fetched, same, start, latest⟩ := h
        cases same
        obtain ⟨sameStart, sameLatest⟩ := Session.after_versions session v _
        exact ⟨planned, _, left, versions, fetched, rfl, sameStart.trans start,
          sameLatest.trans latest⟩

/-- After a call the session in force is that of the backlog that the call returned, or else the one
that was in force before it.
-/
theorem InForce.run {α : Type} (source : Source ρ) (call : Call α) (other : call.closes = false)
    (h : InForce last both.2)
    : InForce ((call.returned ((call.run source).run both)).or last)
        ((call.run source).run both).state.2 := by
  cases call with
  | close => cases other
  | backlog instant =>
      rw [Call.run]
      rcases backlog_cases source instant h.notClosed with failed | returned
      · obtain ⟨failure, failed⟩ := failed
        rw [Call.returned, failed.result_eq, failed.leaves]
        exact h.entered
      · obtain ⟨session, new, returned⟩ := returned
        rw [Call.returned, returned.result_eq, returned.leaves]
        exact ⟨session, session, rfl, rfl, new, rfl, rfl, rfl⟩
  | _ => exact ((keeps_inForce last source).run _ other nofun both ⟨trivial, h⟩).2

/-- The session in force has the versions of the backlog that was returned last. -/
theorem InForce.exists_session {versions : List Int} {left phase : Phase}
    (h : InForce (some (versions, left)) phase)
    : ∃ session : Session,
        phase = .planned session ∧ ∀ v, session.contains v = true ↔ v ∈ versions := by
  obtain ⟨planned, session, -, rfl, -, inForce, start, latest⟩ := h
  refine ⟨session, inForce, fun v => ?_⟩
  rw [Session.mem_versions, Session.contains, start, latest, Bool.and_eq_true, decide_eq_true_eq,
    decide_eq_true_eq]

-----------------------------------------------------------------------------------------
-- Changes
-----------------------------------------------------------------------------------------

/-- (FailsWith code outcome) says that a call failed because it was made in the wrong state. -/
def FailsWith {σ α : Type} (code : ErrorCode) (outcome : Outcome σ α) : Prop :=
  ∃ failure, outcome.result = .error failure ∧ failure.stateCode? = some code

/-- What does not fail with a call in the wrong state fails with no code of one. -/
theorem not_failsWith {σ α : Type} {code : ErrorCode} {outcome : Outcome σ α}
    (h : Raises (!·.isState) outcome.result)
    : ¬FailsWith code outcome := by
  rintro ⟨failure, failed, coded⟩
  rw [Failure.stateCode?_eq_none (h failure failed)] at coded
  cases coded

/-- The definition of a table never fails with a call in the wrong state. -/
theorem tableOf_raises (identity : Identity) (version : Int) (metadata : Metadata)
    (commit : Commit)
    : Raises (!·.isState) (tableOf identity version metadata commit) := by
  have schema : Raises (!·.isState) (schemaOf version metadata) := by
    unfold schemaOf
    split
    · exact .ok none
    · split
      · exact .ok _
      · exact .error rfl
  have format : Raises (!·.isState) (FileFormat.ofProvider (some metadata.formatProvider)) := by
    unfold FileFormat.ofProvider
    split
    · exact .ok _
    · exact .error rfl
  refine .bind schema fun schema _ => .bind format fun format _ => ?_
  exact .bind (.toResult fun _ => rfl) fun _ _ => .ok _

/-- Asking for the definition of a table fails as the reader does. -/
theorem projectTable_raises {reader : Reader ρ} (stateless : reader.Stateless)
    (identity : Identity) (v : Int)
    : (projectTable reader identity v).Raises (!·.isState) :=
  .bind (stateless.metadataAt v) fun metadata => .bind (stateless.commitAt v) fun commit =>
    .ofResult (tableOf_raises identity v metadata commit)

/-- Without a backlog a change is refused. -/
theorem change_unplanned (source : Source ρ) (v : Int) (unplanned : both.2.entered = .ready)
    : (source.change v).run both
      = { result := .error unplannedFailure, state := (both.1, .ready), entries := [] } := by
  have notClosed : both.2 ≠ .closed := by
    intro closed
    rw [closed] at unplanned
    cases unplanned
  rw [change, run_opened notClosed, unplanned]
  rfl

section Planned

variable {session : Session} {v : Int} {s : ρ}

/-- The change of a version that is not to be processed is refused. -/
theorem change_outside (source : Source ρ) (outside : session.contains v = false)
    : (source.change v).run (s, .planned session)
      = { result := .error (session.outside v), state := (s, .planned session), entries := [] }
    := by
  have inSession := sessionActions_run source v s session
  rw [Session.actions_outside outside] at inSession
  have failed
      : ((source.sessionActions v).run (s, .planned session)).result
        = .error (session.outside v) := by
    rw [inSession]
  have notClosed : (s, Phase.planned session).2 ≠ .closed := nofun
  have entered : (s, Phase.planned session).2.entered = .planned session := rfl
  rw [change, run_opened notClosed, entered, Op.run_bind_error failed, inSession]

/-- The change of a version to process fails only with what is wrong with the log. -/
theorem change_raises (source : Source ρ) (stateless : source.reader.Stateless)
    (inside : session.contains v = true)
    : Raises (!·.isState) ((source.change v).run (s, .planned session)).result := by
  have actions
      : Raises (!·.isState) ((Session.actions source.reader v).run (s, session)).result := by
    cases kept : session.fetched.lookup v with
    | some found =>
        rw [Session.actions_kept inside kept]
        exact .ok found
    | none =>
        rw [(Session.actions_read inside kept).result_eq]
        exact stateless.actions v s
  have notClosed : (s, Phase.planned session).2 ≠ .closed := nofun
  rw [change, run_opened notClosed]
  refine .run_bind actions fun found _ => ?_
  refine .run_bind (projectTable_raises stateless source.identity v _) fun table _ => ?_
  rw [(Change.extract_yields (Q := fun _ => True) v table found trivial).result_eq]
  exact .ok _

end Planned

-----------------------------------------------------------------------------------------
-- Runs
-----------------------------------------------------------------------------------------

/-- (Lives both closed last) says that calls on a source led to a state. It says whether the source
was closed by one of them, and which backlog was returned last, with the phase that its call left.
Every call may find another log than the one before it, and may fail.
-/
inductive Lives : ρ × Phase → Bool → Option (List Int × Phase) → Prop where
  | opened (s : ρ) : Lives (s, .fresh) false none
  | called {both : ρ × Phase} {closed : Bool} {last : Option (List Int × Phase)} {α : Type}
    (source : Source ρ) (call : Call α) (h : Lives both closed last)
    : Lives ((call.run source).run both).state (closed || call.closes)
        ((call.returned ((call.run source).run both)).or last)

/-- A source is closed for good or goes by the backlog that was returned last, by induction on its
calls.
-/
theorem Lives.phase_or_inForce {closed : Bool} (h : Lives both closed last)
    : if closed then both.2 = .closed else InForce last both.2 := by
  induction h with
  | opened s => exact .inl rfl
  | @called both closed last α source call _ ih =>
      cases closed with
      | true =>
          cases closes : call.closes with
          | true =>
              cases call with
              | close => exact phase_close source both
              | _ => cases closes
          | false =>
              have refused := run_closed source ih call closes
              rw [refused]
              exact ih
      | false =>
          cases closes : call.closes with
          | true =>
              cases call with
              | close => exact phase_close source both
              | _ => cases closes
          | false => exact ih.run source call closes

/-- (StaysClosed both) says that a source in a state is closed for good: its calls fail without
reading the log, and closing it again does nothing.
-/
structure StaysClosed (both : ρ × Phase) : Prop where
  phase : both.2 = .closed
  refuses {α : Type} (source : Source ρ) (call : Call α) (other : call.closes = false)
    : (call.run source).run both
        = { result := .error source.closedFailure, state := both, entries := [] }
      ∧ source.closedFailure.stateCode? = some .sourceClosed
  closes (source : Source ρ)
    : source.close.run both = { result := .ok (), state := both, entries := [] }

/-- (AnswersFrom last both) says that a source in a state is open, and that it goes by the backlog
that was returned last. A change that is refused is refused without reading the log; that it is
refused in no other case holds of a log that itself never fails with a call in the wrong state.
-/
structure AnswersFrom (last : Option (List Int × Phase)) (both : ρ × Phase) : Prop where
  planned_iff : (∃ session, both.2 = .planned session) ↔ last.isSome = true
  inForce : InForce last both.2
  /-- A backlog that fails leaves the session in force, with all that it fetched. -/
  keeps (source : Source ρ) (instant : Value) (failure : Failure)
    (failed : ((source.backlog instant).run both).result = .error failure)
    : ((source.backlog instant).run both).state.2 = both.2.entered
  unplanned (source : Source ρ) (v : Int) (never : last = none)
    : (source.change v).run both
      = { result := .error unplannedFailure, state := (both.1, .ready), entries := [] }
  outside (source : Source ρ) (v : Int) (entry : List Int × Phase) (returned : last = some entry)
    (absent : v ∉ entry.1)
    : ∃ session : Session,
        both.2 = .planned session
        ∧ (source.change v).run both
          = { result := .error (session.outside v), state := both, entries := [] }
  unplanned_iff (source : Source ρ) (stateless : source.reader.Stateless) (v : Int)
    : FailsWith .syncNotInitialized ((source.change v).run both) ↔ last = none
  outside_iff (source : Source ρ) (stateless : source.reader.Stateless) (v : Int)
    : FailsWith .notInBacklog ((source.change v).run both) ↔ ∃ entry ∈ last, v ∉ entry.1

/-- A closed source stays so, since every call looks at its phase first. -/
theorem StaysClosed.of_closed (closed : both.2 = .closed)
    : StaysClosed both where
  phase := closed
  refuses source call other := ⟨run_closed source closed call other, rfl⟩
  closes _ := close_closed closed

/-- A call that was refused failed with the code that it was refused with. -/
theorem failsWith_of_error {σ α : Type} {outcome : Outcome σ α} {failure : Failure}
    {code refused : ErrorCode} (failed : outcome.result = .error failure)
    (coded : failure.stateCode? = some refused)
    : FailsWith code outcome ↔ refused = code := by
  constructor
  · rintro ⟨other, same, isCode⟩
    cases failed.symm.trans same
    exact Option.some.inj (coded.symm.trans isCode)
  · rintro rfl
    exact ⟨failure, failed, coded⟩

theorem syncNotInitialized_ne_notInBacklog
    : ErrorCode.syncNotInitialized ≠ .notInBacklog :=
  fun same => absurd (congrArg ErrorCode.description same) (by decide)

/-- A backlog that fails leaves the phase as it was when the source was entered. -/
theorem InForce.backlog_keeps (h : InForce last both.2) (source : Source ρ) (instant : Value)
    (failure : Failure) (failed : ((source.backlog instant).run both).result = .error failure)
    : ((source.backlog instant).run both).state.2 = both.2.entered := by
  rcases backlog_cases source instant h.notClosed with ended | returned
  · obtain ⟨_, ended⟩ := ended
    exact ended.leaves
  · obtain ⟨_, _, returned⟩ := returned
    cases returned.result_eq.symm.trans failed

/-- Before the first backlog every change is refused as one without a session. -/
theorem AnswersFrom.of_none (h : InForce none both.2)
    : AnswersFrom none both := by
  have unplanned : both.2.entered = .ready := by
    rcases h with fresh | ready
    · rw [fresh]
      rfl
    · rw [ready]
      rfl
  have refused (source : Source ρ) (v : Int)
      : ((source.change v).run both).result = .error unplannedFailure := by
    rw [change_unplanned source v unplanned]
  constructor
  case planned_iff =>
    constructor
    · rintro ⟨session, planned⟩
      rw [planned] at unplanned
      cases unplanned
    · exact nofun
  case inForce => exact h
  case keeps => exact h.backlog_keeps
  case unplanned => exact fun source v _ => change_unplanned source v unplanned
  case outside => exact nofun
  case unplanned_iff =>
    intro source _ v
    exact (failsWith_of_error (refused source v) rfl).trans (iff_of_true rfl rfl)
  case outside_iff =>
    intro source _ v
    refine (failsWith_of_error (refused source v) rfl).trans (iff_of_false ?_ nofun)
    exact syncNotInitialized_ne_notInBacklog

/-- After a backlog a change is refused exactly if its version is not in that backlog. -/
theorem AnswersFrom.of_some {entry : List Int × Phase} (h : InForce (some entry) both.2)
    : AnswersFrom (some entry) both := by
  obtain ⟨session, planned, contains⟩ := h.exists_session
  obtain ⟨s, phase⟩ := both
  subst planned
  have refused (source : Source ρ) {v : Int} (absent : v ∉ entry.1)
      : (source.change v).run (s, .planned session)
        = { result := .error (session.outside v), state := (s, .planned session), entries := [] }
      := by
    apply change_outside
    rw [← Bool.not_eq_true, contains]
    exact absent
  have raises (source : Source ρ) (stateless : source.reader.Stateless) {v : Int}
      (member : v ∈ entry.1) (code : ErrorCode)
      : ¬FailsWith code ((source.change v).run (s, .planned session)) :=
    not_failsWith (change_raises source stateless ((contains v).mpr member))
  constructor
  case planned_iff => exact iff_of_true ⟨session, rfl⟩ rfl
  case inForce => exact h
  case keeps => exact h.backlog_keeps
  case unplanned => exact nofun
  case outside =>
    intro source v _ returned absent
    cases returned
    exact ⟨session, rfl, refused source absent⟩
  case unplanned_iff =>
    intro source stateless v
    refine iff_of_false ?_ nofun
    by_cases member : v ∈ entry.1
    · exact raises source stateless member _
    · rw [failsWith_of_error (congrArg Outcome.result (refused source member)) rfl]
      exact syncNotInitialized_ne_notInBacklog.symm
  case outside_iff =>
    intro source stateless v
    by_cases member : v ∈ entry.1
    · refine iff_of_false (raises source stateless member _) ?_
      rintro ⟨_, returned, absent⟩
      cases returned
      exact absent member
    · rw [failsWith_of_error (congrArg Outcome.result (refused source member)) rfl]
      exact iff_of_true rfl ⟨entry, rfl, member⟩

/-- A source answers as the calls on it say: once it was closed it stays closed, and till then it
goes by the backlog that was returned last.
-/
theorem answers_of_lives {closed : Bool} (h : Lives both closed last)
    : (closed = true → StaysClosed both) ∧ (closed = false → AnswersFrom last both) := by
  have known := h.phase_or_inForce
  constructor
  · rintro rfl
    exact .of_closed known
  · rintro rfl
    cases last with
    | none => exact .of_none known
    | some entry => exact .of_some known

/-- After a backlog was returned it is the last. -/
theorem Lives.returned {closed : Bool} {versions : List Int} (h : Lives both closed last)
    (source : Source ρ) (instant : Value)
    (told : ((source.backlog instant).run both).result = .ok versions)
    : Lives ((source.backlog instant).run both).state closed
        (some (versions, ((source.backlog instant).run both).state.2)) := by
  have called := Lives.called source (.backlog instant) h
  have stays : (Call.backlog instant).closes = false := rfl
  rw [Call.run, Call.returned, told, stays, Bool.or_false] at called
  exact called

/-- (sampleBacklog) is the backlog from an early instant, while the log has its first commit only.
-/
def sampleBacklog : Outcome (CommitLog × Phase) (List Int) :=
  ((Source.ofLog (storeOf (filesOf sampleStart)) { basePath := "." }).backlog
    (.moment (.utc 0))).run (.ofBase {} topPlace.base, .fresh)

theorem result_sampleBacklog
    : sampleBacklog.result = .ok [] := by
  decide +kernel

/-- A version that was committed after a backlog was returned is refused. -/
theorem answers_of_lives_sampleBacklog
    : FailsWith .notInBacklog
        (((Source.ofLog sampleTree { basePath := "." }).change 2).run sampleBacklog.state) := by
  have lives : Lives sampleBacklog.state false (some ([], sampleBacklog.state.2)) :=
    (Lives.opened _).returned _ _ result_sampleBacklog
  have answers := (answers_of_lives lives).2 rfl
  exact (answers.outside_iff _ (CommitLog.reader_stateless sampleTree) 2).mpr
    ⟨_, rfl, List.not_mem_nil⟩

end Source

end DeltaFeed.Feed
