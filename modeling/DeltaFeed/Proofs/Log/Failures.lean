import DeltaFeed.Log.Reader
import DeltaFeed.Proofs.Log.Coherence

/-! What reading a log can fail with. The files of a log fail with what is wrong with them, and not
because something was looked up that is not there, or a call was made in the wrong state.
-/

namespace DeltaFeed

namespace Failure

/-- (failure.isAstray) holds if a position or a key was looked up that is not there. -/
def isAstray : Failure → Bool
  | noSuchPosition | missingKey _ => true
  | _ => false

/-- (failure.isState) holds of calls that were made in the wrong state. -/
def isState : Failure → Bool
  | fault f | wrapped f _ => f.family == .state
  | _ => false

/-- (failure.isOfFiles) holds of what can be wrong with files. -/
def isOfFiles (failure : Failure) : Bool :=
  !failure.isAstray && !failure.isState

/-- (failure.isOfLine) holds of what can be wrong with the file action on a line: a value of the
wrong kind, a path that is missing, or data that do not make an action.
-/
def isOfLine : Failure → Bool
  | noSuchMember | wrongType | missingKey _ | invalid _ => true
  | _ => false

/-- (failure.stateCode?) is the code of a call that was made in the wrong state. -/
def stateCode? : Failure → Option ErrorCode
  | fault f | wrapped f _ => if f.family = .state then some f.code else none
  | _ => none

/-- (failure.readError?) are the code and the version of a failed read. -/
def readError? : Failure → Option (ErrorCode × Option Int)
  | fault f | wrapped f _ => if f.family = .read then some (f.code, f.version) else none
  | _ => none

/-- A failed read has the code and the version that it was made with. -/
@[simp] theorem readError?_read (code : ErrorCode) (detail : String) (v : Int)
    : (read code detail (some v)).readError? = some (code, some v) :=
  rfl

/-- So has a failed read with a cause. -/
@[simp] theorem readError?_readFrom (cause : Failure) (code : ErrorCode) (detail : String) (v : Int)
    : (readFrom cause code detail (some v)).readError? = some (code, some v) :=
  rfl

/-- What is not a call in the wrong state has no code of one, by cases of the failure. -/
theorem stateCode?_eq_none {failure : Failure} (h : (!failure.isState) = true)
    : failure.stateCode? = none := by
  cases failure with
  | fault f | wrapped f =>
      have other : f.family ≠ .state := by simpa [isState] using h
      exact if_neg other
  | _ => rfl

/-- What is wrong with files is not that something was looked up in vain. -/
theorem isAstray_of_isOfFiles {failure : Failure} (h : failure.isOfFiles = true)
    : (!failure.isAstray) = true := by
  rw [isOfFiles, Bool.and_eq_true] at h
  exact h.1

/-- What is wrong with files is not a call in the wrong state. -/
theorem isState_of_isOfFiles {failure : Failure} (h : failure.isOfFiles = true)
    : (!failure.isState) = true := by
  rw [isOfFiles, Bool.and_eq_true] at h
  exact h.2

/-- What is wrong with the action on a line is no failed read: none of these failures has a code. -/
theorem readError?_eq_none {failure : Failure} (h : failure.isOfLine = true)
    : failure.readError? = none := by
  cases failure with
  | noSuchMember | wrongType | missingKey | invalid => rfl
  | _ => cases h

/-- What is wrong with the action on a line is not a call in the wrong state. -/
theorem isState_of_isOfLine {failure : Failure} (h : failure.isOfLine = true)
    : (!failure.isState) = true := by
  cases failure with
  | noSuchMember | wrongType | missingKey | invalid => rfl
  | _ => cases h

end Failure

-----------------------------------------------------------------------------------------
-- Failures of results and of operations
-----------------------------------------------------------------------------------------

variable {σ τ α β : Type} {p q : Failure → Bool}

/-- (Raises p result) says that a result is a failure in p, or no failure. -/
def Raises (p : Failure → Bool) (result : Except Failure α) : Prop :=
  ∀ failure, result = .error failure → p failure = true

/-- (FailsRead code v result) says that a result is a failed read with a code, tied to a version. -/
def FailsRead (code : ErrorCode) (v : Int) (result : Except Failure α) : Prop :=
  ∃ failure, result = .error failure ∧ failure.readError? = some (code, some v)

/-- A failure is a failed read if its own code and version say so. -/
theorem failsRead_error {code : ErrorCode} {v : Int} {failure : Failure}
    : FailsRead code v (.error failure : Except Failure α)
      ↔ failure.readError? = some (code, some v) := by
  constructor
  · rintro ⟨_, same, isRead⟩
    exact Except.error.inj same ▸ isRead
  · exact fun isRead => ⟨failure, rfl, isRead⟩

/-- A value is no failed read. -/
theorem not_failsRead_ok {code : ErrorCode} {v : Int} (a : α)
    : ¬FailsRead code v (.ok a : Except Failure α) :=
  nofun

namespace Raises

/-- A value is no failure, so that it is in order whatever may be raised. -/
theorem ok (a : α)
    : Raises p (.ok a : Except Failure α) :=
  nofun

/-- A single failure is raised if it is allowed. -/
theorem error {failure : Failure} (h : p failure = true)
    : Raises p (.error failure : Except Failure α) :=
  fun _ same => Except.error.inj same ▸ h

/-- A sequence raises what its parts raise; the second part only counts for values of the first. -/
theorem bind {first : Except Failure α} {next : α → Except Failure β} (h : Raises p first)
    (second : ∀ a, first = .ok a → Raises p (next a))
    : Raises p (first >>= next) := by
  cases first with
  | error failure => exact .error (h failure rfl)
  | ok a => exact second a rfl

/-- A function on values does not change what is raised. -/
theorem map {result : Except Failure α} (h : Raises p result) (f : α → β)
    : Raises p (f <$> result) := by
  cases result with
  | error failure => exact .error (h failure rfl)
  | ok a => exact .ok (f a)

/-- What is raised may be described more loosely. -/
theorem mono {result : Except Failure α} (h : Raises p result)
    (weaker : ∀ failure, p failure = true → q failure = true)
    : Raises q result :=
  fun failure failed => weaker failure (h failure failed)

/-- A check raises only that the data are not valid. -/
theorem toResult {checked : Checked α} (h : ∀ issues, p (.invalid issues) = true)
    : Raises p checked.toResult := by
  cases checked with
  | good a => exact .ok a
  | bad issues => exact .error (h issues)

end Raises

/-- (op.Raises p) says that an operation fails only with failures in p. -/
def Op.Raises (p : Failure → Bool) (op : Op σ α) : Prop :=
  ∀ s, DeltaFeed.Raises p (op.run s).result

/-- A sequence fails only with what its parts fail with. -/
theorem Raises.run_bind {op : Op σ α} {next : α → Op σ β} {s : σ}
    (first : Raises p (op.run s).result)
    (second
      : ∀ a, (op.run s).result = .ok a → Raises p ((next a).run (op.run s).state).result)
    : Raises p ((op >>= next).run s).result := by
  cases ended : (op.run s).result with
  | error failure =>
      rw [Op.run_bind_error ended]
      exact .error (first failure ended)
  | ok a =>
      rw [Op.run_bind_ok ended]
      exact second a ended

namespace Op.Raises

/-- A sequence of operations raises what its parts raise, in whatever state the first leaves. -/
theorem bind {op : Op σ α} {next : α → Op σ β} (first : op.Raises p)
    (second : ∀ a, (next a).Raises p)
    : (op >>= next).Raises p :=
  fun s => .run_bind (first s) fun a _ => second a _

/-- An operation that only gives a value raises nothing. -/
theorem pure (a : α)
    : (Pure.pure a : Op σ α).Raises p :=
  fun _ => .ok a

/-- An operation that gives a result raises what the result raises. -/
theorem ofResult {result : Except Failure α} (h : DeltaFeed.Raises p result)
    : (Op.ofResult result : Op σ α).Raises p :=
  fun _ => h

/-- Looking at the state raises nothing. -/
theorem current
    : (Op.current : Op σ σ).Raises p :=
  fun s => .ok s

/-- Changing the state raises nothing. -/
theorem change (f : σ → σ)
    : (Op.change f).Raises p :=
  fun _ => .ok ()

/-- Writing to the journal raises nothing. -/
theorem tell (level : Level) (channel : Channel) (message : String)
    : (Op.tell level channel message : Op σ Unit).Raises p :=
  fun _ => .ok ()

/-- A loop raises what its step raises, by induction on the items. -/
theorem forEach {act : α → Op σ Unit} (h : ∀ item, (act item).Raises p) (items : List α)
    : (Op.forEach items act).Raises p := by
  induction items with
  | nil => exact fun _ => .ok ()
  | cons item rest ih => exact bind (h item) fun _ => ih

end Op.Raises

-----------------------------------------------------------------------------------------
-- Commit files
-----------------------------------------------------------------------------------------

namespace Log

open Store (Tree Path)

/-- A commit file that is missing or cannot be read is a failure of the files. -/
theorem load_raises (tree : Tree) (place : Place) (v : Int)
    : Raises (·.isOfFiles) (load tree place v) := by
  unfold load
  dsimp only
  split
  · exact .error rfl
  · exact .error rfl
  · split
    · exact .ok _
    · exact .error rfl

/-- So is a commit file whose time of modification is not known. -/
theorem modifiedMillis_raises (tree : Tree) (place : Place) (v : Int)
    : Raises (·.isOfFiles) (modifiedMillis tree place v) := by
  unfold modifiedMillis
  dsimp only
  split
  · exact .ok _
  · exact .error rfl

/-- A line that is no record fails for its kind when a key is looked up in it. -/
theorem member_raises (value : Value) (key : String)
    : Raises (·.isOfFiles) (Payload.member value key) := by
  cases value with
  | record fields => exact .ok _
  | _ => exact .error rfl

/-- Whether a line has a record under a key is told by looking it up. -/
theorem present_raises (value : Value) (key : String)
    : Raises (·.isOfFiles) (Payload.present value key) :=
  .bind (member_raises value key) fun _ _ => .ok _

/-- The search for a stated time fails as its lines do, by induction on them. -/
theorem statedMillis_raises (lines : List Value)
    : Raises (·.isOfFiles) (Payload.statedMillis lines) := by
  induction lines with
  | nil => exact .ok _
  | cons line rest ih =>
      rw [Payload.statedMillis]
      refine .bind (present_raises line _) fun info _ => ?_
      cases info with
      | none => exact ih
      | some info =>
          refine .bind (member_raises info _) fun time _ => ?_
          split
          · exact .ok _
          · exact ih

/-- The time of a version fails as its file does, whether it is stated or that of modification. -/
theorem timeAt_raises (tree : Tree) (place : Place) (v : Int)
    : Raises (·.isOfFiles) (timeAt tree place v) := by
  refine .bind (load_raises tree place v) fun lines _ => ?_
  refine .bind (statedMillis_raises lines) fun stated _ => ?_
  cases stated with
  | some millis => exact .ok millis
  | none => exact modifiedMillis_raises tree place v

/-- The names in a directory fail only as numerals that cannot be read, by induction on them. -/
theorem readAll_raises (stems : List (List Char))
    : Raises (·.isOfFiles) (readAll stems) := by
  induction stems with
  | nil => exact .ok _
  | cons stem rest ih =>
      have first : Raises (·.isOfFiles) (Integer.read stem) := by
        unfold Integer.read
        dsimp only
        split
        · exact .error rfl
        · split
          · exact .ok _
          · exact .error rfl
      exact .bind first fun version _ => .bind ih fun _ _ => .ok _

/-- A directory that is missing or has no commit is a failure of the files. -/
theorem listVersions_raises (tree : Tree) (place : Place)
    : Raises (·.isOfFiles) (listVersions tree place) := by
  unfold listVersions
  dsimp only
  split
  · refine .bind (readAll_raises _) fun versions _ => ?_
    split
    · exact .error rfl
    · exact .ok _
  · exact .error rfl
  · exact .error rfl

/-- A value that is no record fails for its kind. -/
theorem recordOf_raises (value : Value) (h : p .noSuchMember = true)
    : Raises p (Payload.recordOf value) := by
  cases value with
  | record fields => exact .ok fields
  | _ => exact .error h

/-- Metadata fail for their kind or because they are not valid. -/
theorem metadataOf_raises (provider : String) (value : Value)
    : Raises (·.isOfFiles) (Payload.metadataOf provider value) :=
  .bind (recordOf_raises value rfl) fun _ _ =>
    .bind (recordOf_raises _ rfl) fun _ _ => .toResult fun _ => rfl

-----------------------------------------------------------------------------------------
-- File actions
-----------------------------------------------------------------------------------------

/-- A line without the key, or without keys at all, is a failure of the line. -/
theorem entry_raises (value : Value) (key : String)
    : Raises (·.isOfLine) (Payload.entry value key) := by
  cases value with
  | record fields =>
      unfold Payload.entry
      dsimp only
      split
      · exact .ok _
      · exact .error rfl
  | _ => exact .error rfl

/-- Only what can be searched tells whether it mentions a key. -/
theorem mentions_raises (value : Value) (key : String)
    : Raises (·.isOfLine) (Payload.mentions value key) := by
  cases value with
  | record | list | text => exact .ok _
  | _ => exact .error rfl

/-- The only failure of a path is that it is missing. -/
theorem pathOf_raises (fields : List (String × Value))
    : Raises (·.isOfLine) (Payload.pathOf fields) := by
  unfold Payload.pathOf
  split
  · exact .ok _
  · exact .error rfl

/-- A deletion vector fails because its data are not valid. -/
theorem vectorOf_raises (fields : List (String × Value))
    : Raises (·.isOfLine) (Payload.vectorOf fields) := by
  unfold Payload.vectorOf
  split
  · split
    · exact .ok none
    · exact .map (.toResult fun _ => rfl) _
  · exact .ok none

/-- An addition fails as its parts do: its record, its path, its vector and its own check. -/
theorem addOf_raises (value : Value)
    : Raises (·.isOfLine) (Payload.addOf value) := by
  refine .bind (recordOf_raises value rfl) fun fields _ => ?_
  refine .bind (pathOf_raises fields) fun path _ => ?_
  refine .bind (vectorOf_raises fields) fun vector _ => ?_
  exact .bind (.toResult fun _ => rfl) fun _ _ => .ok _

/-- A removal fails as its parts do, like an addition. -/
theorem removeOf_raises (value : Value)
    : Raises (·.isOfLine) (Payload.removeOf value) := by
  refine .bind (recordOf_raises value rfl) fun fields _ => ?_
  refine .bind (pathOf_raises fields) fun path _ => ?_
  refine .bind (vectorOf_raises fields) fun vector _ => ?_
  exact .bind (.toResult fun _ => rfl) fun _ _ => .ok _

/-- The action on a line fails as the addition or the removal that the line mentions. -/
theorem actionOf_raises (line : Value)
    : Raises (·.isOfLine) (Payload.actionOf line) := by
  refine .bind (mentions_raises line "add") fun adds _ => ?_
  split
  · refine .bind (entry_raises line "add") fun value _ => ?_
    exact .bind (addOf_raises value) fun _ _ => .ok _
  · refine .bind (mentions_raises line "remove") fun removes _ => ?_
    split
    · refine .bind (entry_raises line "remove") fun value _ => ?_
      exact .bind (removeOf_raises value) fun _ _ => .ok _
    · exact .ok none

/-- The actions of a file fail as one of its lines does, by induction on the lines. -/
theorem actionsOf_raises (lines : List Value)
    : Raises (·.isOfLine) (Payload.actionsOf lines) := by
  induction lines with
  | nil => exact .ok []
  | cons line rest ih =>
      exact .bind (actionOf_raises line) fun _ _ => .bind ih fun _ _ => .ok _

-----------------------------------------------------------------------------------------
-- Operations of a log
-----------------------------------------------------------------------------------------

namespace CommitLog

variable {tree : Tree}

/-- The lines of a version fail as its file does, also if they were kept in memory. -/
theorem payloads_raises (v : Int)
    : (payloads tree v).Raises (!·.isState) := by
  refine .bind .current fun log => ?_
  dsimp only
  split
  · exact .bind (.pure _) fun found => .bind (.change _) fun _ => .pure found
  · refine .bind (.ofResult ?_) fun found => .bind (.change _) fun _ => .pure found
    exact (load_raises tree log.place v).mono fun _ => Failure.isState_of_isOfFiles

/-- The actions of a version fail as its lines do, or as the actions on them. -/
theorem actions_raises (v : Int)
    : (actions tree v).Raises (!·.isState) :=
  .bind (payloads_raises v) fun lines =>
    .ofResult ((actionsOf_raises lines).mono fun _ => Failure.isState_of_isOfLine)

/-- The time of a version fails as its lines do, or as the file that was modified. -/
theorem rawMillis_raises (v : Int)
    : (rawMillis tree v).Raises (!·.isState) := by
  refine .bind (payloads_raises v) fun lines => ?_
  refine .bind (.ofResult ((statedMillis_raises lines).mono fun _ => Failure.isState_of_isOfFiles))
    fun stated => ?_
  cases stated with
  | some millis => exact .pure millis
  | none =>
      refine .bind .current fun log => .ofResult ?_
      exact (modifiedMillis_raises tree log.place v).mono fun _ => Failure.isState_of_isOfFiles

/-- Recording the metadata of a version fails as its lines do, by induction on them. -/
theorem recordMetadata_raises (v : Int) (lines : List Value)
    : (recordMetadata v lines).Raises (!·.isState) := by
  induction lines with
  | nil => exact .pure ()
  | cons line rest ih =>
      rw [recordMetadata]
      refine .bind (.ofResult ((present_raises line _).mono fun _ => Failure.isState_of_isOfFiles))
        fun found => ?_
      cases found with
      | none => exact .bind (.pure ()) fun _ => ih
      | some value =>
          refine .bind (.change _) fun _ => .bind .current fun log => ?_
          refine .bind (.ofResult ?_) fun metadata => .bind (.change _) fun _ => ih
          exact (metadataOf_raises _ value).mono fun _ => Failure.isState_of_isOfFiles

/-- Entering a version in the history fails if its time is out of range or as its metadata do. -/
theorem enter_raises (v millis : Int)
    : (enter tree v millis).Raises (!·.isState) := by
  refine .bind (.change _) fun _ => .bind (.ofResult ?_) fun timestamp => ?_
  · unfold Time.Timestamp.ofMillis Time.Timestamp.ofInstant
    split
    · exact .ok _
    · exact .error rfl
  · refine .bind (.change _) fun _ => .bind (payloads_raises v) fun lines => ?_
    exact recordMetadata_raises v lines

/-- Extending the history by a version fails as its time does, or as entering it. -/
theorem extend_raises (v : Int)
    : (extend tree v).Raises (!·.isState) := by
  refine .bind (rawMillis_raises v) fun raw => .bind .current fun log => ?_
  dsimp only
  split
  · exact .bind (.tell _ _ _) fun _ => enter_raises v _
  · exact enter_raises v _

/-- Refreshing the history fails as the listing does, or as a version that is new. -/
theorem refresh_raises
    : (refresh tree).Raises (!·.isState) := by
  refine .bind .current fun log => .bind (.ofResult ?_) fun versions => ?_
  · exact (listVersions_raises tree log.place).mono fun _ => Failure.isState_of_isOfFiles
  · have fits : (resetUnlessFits versions).Raises (!·.isState) := by
      refine .bind .current fun log => ?_
      split
      · exact .bind (.tell _ _ _) fun _ => .change _
      · exact .pure ()
    exact .bind fits fun _ => .bind .current fun log => .forEach extend_raises _

/-- The commit of a version fails as the refresh does, or because it is not in the history. -/
theorem commitAt_raises (v : Int)
    : (commitAt tree v).Raises (!·.isState) := by
  have found (history : History) : Raises (!·.isState) (history.commitAt v) := by
    unfold History.commitAt
    split
    · exact .error rfl
    · split
      · exact .ok _
      · exact .error rfl
  refine .bind .current fun log => ?_
  split
  · exact .bind refresh_raises fun _ => .bind .current fun log => .ofResult (found _)
  · exact .bind .current fun log => .ofResult (found _)

/-- The metadata of a version fail as its commit does, or because none were recorded yet. -/
theorem metadataAt_raises (v : Int)
    : (metadataAt tree v).Raises (!·.isState) := by
  refine .bind (commitAt_raises v) fun _ => .bind .current fun log => .ofResult ?_
  unfold History.metadataAt
  split
  · exact .error rfl
  · split
    · exact .ok _
    · exact .error rfl

end CommitLog

/-- (reader.Stateless) says that reading a log fails only with what is wrong with the log, and not
because of a call that was made in the wrong state.
-/
structure Reader.Stateless {ρ : Type} (reader : Reader ρ) : Prop where
  actions (v : Int) : (reader.actions v).Raises (!·.isState)
  commitAt (v : Int) : (reader.commitAt v).Raises (!·.isState)
  metadataAt (v : Int) : (reader.metadataAt v).Raises (!·.isState)

/-- Reading a log never fails with a call in the wrong state, since no step of it does. -/
theorem CommitLog.reader_stateless (tree : Tree)
    : (CommitLog.reader tree).Stateless where
  actions := CommitLog.actions_raises
  commitAt := CommitLog.commitAt_raises
  metadataAt := CommitLog.metadataAt_raises

end Log

end DeltaFeed
