import DeltaFeed.Proofs.Log.Failures
import DeltaFeed.Proofs.Log.MissingVersions

/-! What becomes of commit files whose lines are not what they should be. A file that cannot be
decoded is a failed read. A line that can be decoded and still makes no file action fails as it is,
with no word of the version; and of two actions on one line only the first is given.
-/

namespace DeltaFeed.Log

open Store (Tree Path Node)

-----------------------------------------------------------------------------------------
-- What a line states
-----------------------------------------------------------------------------------------

/-- (statedActions line) are the file actions that a line states under its keys, as far as each of
them can be read.
-/
def statedActions (line : Value) : List (Except Failure Action) :=
  ((line.field? "add").map fun value => .add <$> Payload.addOf value).toList
    ++ ((line.field? "remove").map fun value => .remove <$> Payload.removeOf value).toList

/-- (PlainLine line) says that a line can be read as a whole: it is a record that states at most one
file action, which is valid, or else a list or a text that mentions none.
-/
def PlainLine : Value → Prop
  | .record fields =>
    (statedActions (.record fields)).length ≤ 1
    ∧ ∀ action ∈ statedActions (.record fields), action.isOk = true
  | line => Payload.mentions line "add" = .ok false ∧ Payload.mentions line "remove" = .ok false

instance (line : Value)
    : Decidable (PlainLine line) :=
  match line with
  | .record fields =>
    inferInstanceAs (Decidable
      ((statedActions (.record fields)).length ≤ 1
        ∧ ∀ action ∈ statedActions (.record fields), action.isOk = true))
  | .null | .bool _ | .int _ | .float _ | .text _ | .list _ | .moment _ | .lastSync _ =>
    inferInstanceAs (Decidable (_ ∧ _))

/-- The file action of a record is the first one that it states. -/
theorem actionOf_record (fields : List (String × Value))
    : Payload.actionOf (.record fields)
      = ((statedActions (.record fields)).head?.map (some <$> ·)).getD (.ok none) := by
  unfold Payload.actionOf statedActions
  simp only [Payload.mentions, Payload.entry, contains_keys, Value.field?]
  cases fields.lookup "add" with
  | some value =>
      show (do return some (.add (← Payload.addOf value)))
        = some <$> Action.add <$> Payload.addOf value
      cases Payload.addOf value <;> rfl
  | none =>
      cases fields.lookup "remove" with
      | some value =>
          show (do return some (.remove (← Payload.removeOf value)))
            = some <$> Action.remove <$> Payload.removeOf value
          cases Payload.removeOf value <;> rfl
      | none => rfl

/-- What has no entries is read as stating nothing, if it mentions no file action. -/
theorem actionOf_eq_ok_of_noEntry {line : Value} {action : Option Action}
    (noEntry : ∀ key, Payload.entry line key = .error .wrongType)
    : Payload.actionOf line = .ok action
      ↔ (Payload.mentions line "add" = .ok false ∧ Payload.mentions line "remove" = .ok false)
        ∧ action = none := by
  rw [Payload.actionOf, noEntry, noEntry]
  rcases Payload.mentions line "add" with failure | _ | _
  · exact iff_of_false nofun nofun
  · rcases Payload.mentions line "remove" with failure | _ | _
    · exact iff_of_false nofun nofun
    · simp only [bind, Except.bind, pure, Except.pure, Bool.false_eq_true, if_false, and_self,
        true_and, Except.ok.injEq, eq_comm (a := none)]
    · exact iff_of_false nofun nofun
  · exact iff_of_false nofun nofun

/-- A plain line is one that is read as a whole. -/
theorem plainLine_iff {line : Value}
    : PlainLine line
      ↔ ∃ action,
          Payload.actionOf line = .ok action ∧ statedActions line = action.toList.map .ok := by
  cases line with
  | record fields =>
      rw [PlainLine, actionOf_record]
      rcases statedActions (.record fields) with _ | ⟨first, _ | ⟨second, rest⟩⟩
      · exact iff_of_true ⟨Nat.zero_le 1, List.forall_mem_nil _⟩ ⟨none, rfl, rfl⟩
      · cases first with
        | error failure =>
            refine iff_of_false (fun plain => ?_) (by rintro ⟨action, read, _⟩; cases read)
            cases plain.2 _ (List.mem_singleton_self _)
        | ok action =>
            refine iff_of_true ⟨Nat.le_refl 1, fun a member => ?_⟩ ⟨some action, rfl, rfl⟩
            rw [List.mem_singleton.mp member]
            rfl
      · refine iff_of_false (fun plain => ?_) ?_
        · exact absurd plain.1 (by simp)
        · rintro ⟨action, _, same⟩
          cases action <;> cases same
  | _ =>
      rw [PlainLine]
      constructor
      · exact fun unmentioned =>
          ⟨none, (actionOf_eq_ok_of_noEntry fun _ => rfl).mpr ⟨unmentioned, rfl⟩, rfl⟩
      · rintro ⟨action, read, _⟩
        exact ((actionOf_eq_ok_of_noEntry fun _ => rfl).mp read).1
      · exact nofun

/-- What is read of a line is stated on it. -/
theorem sublist_statedActions {line : Value} {action : Option Action}
    (read : Payload.actionOf line = .ok action)
    : (action.toList.map .ok).Sublist (statedActions line) := by
  cases action with
  | none => exact List.nil_sublist _
  | some action =>
      cases line with
      | record fields =>
          rw [actionOf_record] at read
          generalize statedActions (.record fields) = stated at read ⊢
          rcases stated with _ | ⟨first, rest⟩
          · cases read
          · cases first with
            | error failure => cases read
            | ok first =>
                cases read
                exact .cons_cons _ (List.nil_sublist rest)
      | _ =>
          obtain ⟨_, none⟩ := (actionOf_eq_ok_of_noEntry fun _ => rfl).mp read
          cases none

-----------------------------------------------------------------------------------------
-- What the lines of a file state
-----------------------------------------------------------------------------------------

/-- Actions that are given are stated, in the order of the lines. -/
theorem sublist_of_actionsOf {lines : List Value} {actions : List Action}
    (read : Payload.actionsOf lines = .ok actions)
    : (actions.map .ok).Sublist (lines.flatMap statedActions) := by
  induction lines generalizing actions with
  | nil => cases read; exact .slnil
  | cons line rest ih =>
      obtain ⟨action, first, read⟩ := bind_eq_ok.mp read
      obtain ⟨others, later, read⟩ := bind_eq_ok.mp read
      cases read
      rw [List.map_append, List.flatMap_cons]
      exact (sublist_statedActions first).append (ih later)

/-- All that the lines of a file state is given exactly if each of them is plain. -/
theorem forall_plainLine_iff {lines : List Value}
    : (∀ line ∈ lines, PlainLine line)
      ↔ ∃ actions,
          Payload.actionsOf lines = .ok actions
          ∧ lines.flatMap statedActions = actions.map .ok := by
  induction lines with
  | nil => exact iff_of_true nofun ⟨[], rfl, rfl⟩
  | cons line rest ih =>
      rw [List.forall_mem_cons, ih, plainLine_iff, Payload.actionsOf, List.flatMap_cons]
      constructor
      · rintro ⟨⟨action, first, whole⟩, others, later, wholeRest⟩
        refine ⟨action.toList ++ others, ?_, ?_⟩
        · rw [first, later]
          rfl
        · rw [whole, wholeRest, List.map_append]
      · rintro ⟨actions, read, whole⟩
        obtain ⟨action, first, read⟩ := bind_eq_ok.mp read
        obtain ⟨others, later, read⟩ := bind_eq_ok.mp read
        cases read
        -- neither part states more than is read of it, and both together do not
        have partFirst := sublist_statedActions first
        have partRest := sublist_of_actionsOf later
        rw [List.map_append] at whole
        have total := congrArg List.length whole
        rw [List.length_append, List.length_append] at total
        have sizeFirst := partFirst.length_le
        have sizeRest := partRest.length_le
        have wholeFirst := (partFirst.eq_of_length (by omega)).symm
        refine ⟨⟨action, first, wholeFirst⟩, others, later, ?_⟩
        exact (partRest.eq_of_length (by omega)).symm

/-- Lines that cannot be read fail with the first of them that cannot. -/
theorem exists_first_of_actionsOf {lines : List Value} {failure : Failure}
    (failed : Payload.actionsOf lines = .error failure)
    : ∃ before line after,
        lines = before ++ line :: after
        ∧ (∀ earlier ∈ before, ∃ action, Payload.actionOf earlier = .ok action)
        ∧ Payload.actionOf line = .error failure := by
  induction lines with
  | nil => cases failed
  | cons line rest ih =>
      rw [Payload.actionsOf] at failed
      cases first : Payload.actionOf line with
      | error cause =>
          rw [first] at failed
          cases failed
          exact ⟨[], line, rest, rfl, nofun, first⟩
      | ok action =>
          rw [first] at failed
          cases later : Payload.actionsOf rest with
          | ok others =>
              rw [later] at failed
              cases failed
          | error cause =>
              rw [later] at failed
              cases failed
              obtain ⟨before, next, after, rfl, readable, fails⟩ := ih later
              refine ⟨line :: before, next, after, rfl, ?_, fails⟩
              exact List.forall_mem_cons.mpr ⟨⟨action, first⟩, readable⟩

-----------------------------------------------------------------------------------------
-- What a log gives of a file
-----------------------------------------------------------------------------------------

section Calls

variable {settings : Settings} {base : Path} {tree : Tree} {log : CommitLog} {v nanos : Int}
  {content : ByteArray}

/-- (ReadsWhole content v result) says that a file is read as promised: all file actions that its
lines state are given, in order, or else it is a failed read, which names the version.
-/
def ReadsWhole (content : ByteArray) (v : Int) : Except Failure (List Action) → Prop
  | .ok actions => (payloadsOf content).map (·.flatMap statedActions) = some (actions.map .ok)
  | .error failure => failure.readError?.map (·.2) = some (some v)

instance (content : ByteArray) (v : Int) (result : Except Failure (List Action))
    : Decidable (ReadsWhole content v result) :=
  match result with
  | .ok actions =>
    inferInstanceAs (Decidable
      ((payloadsOf content).map (·.flatMap statedActions) = some (actions.map .ok)))
  | .error failure =>
    inferInstanceAs (Decidable (failure.readError?.map (·.2) = some (some v)))

/-- A file that is decoded is read as promised exactly if each of its lines is plain. -/
theorem readsWhole_actionsOf_iff {lines : List Value} (decoded : payloadsOf content = some lines)
    : ReadsWhole content v (Payload.actionsOf lines) ↔ ∀ line ∈ lines, PlainLine line := by
  rw [forall_plainLine_iff]
  cases read : Payload.actionsOf lines with
  | error failure =>
      refine iff_of_false (fun isRead => ?_) (by rintro ⟨actions, given, _⟩; cases given)
      rw [ReadsWhole, Failure.readError?_eq_none (actionsOf_raises lines failure read)] at isRead
      cases isRead
  | ok actions =>
      rw [ReadsWhole, decoded, Option.map_some, Option.some_inj]
      constructor
      · exact fun whole => ⟨actions, rfl, whole⟩
      · rintro ⟨others, same, whole⟩
        cases same
        exact whole

/-- A file of a log is read as promised exactly if it cannot be decoded, which is a failed read, or
each of its lines is plain. What is given of a file is always stated on its lines, in that order;
and where its lines can be decoded, it fails with what is wrong with the first of them that cannot
be read, and never with a failed read.
-/
theorem actions_readWhole_iff {result : Except Failure (List Action)}
    (asked : Asked settings base tree log)
    (there : tree.find ((Place.ofBase settings base).file v) = .ok (.file content nanos))
    (ends : ((CommitLog.actions tree v).run log).result = result)
    : (ReadsWhole content v result
        ↔ ∀ lines, payloadsOf content = some lines → ∀ line ∈ lines, PlainLine line)
      ∧ (payloadsOf content = none → FailsRead .logRead v result)
      ∧ ∀ lines,
          payloadsOf content = some lines
          → (∀ actions, result = .ok actions
              → (actions.map .ok).Sublist (lines.flatMap statedActions))
            ∧ ∀ failure, result = .error failure
              → failure.isOfLine = true
                ∧ failure.readError? = none
                ∧ ∃ before line after,
                    lines = before ++ line :: after
                    ∧ (∀ earlier ∈ before, ∃ action, Payload.actionOf earlier = .ok action)
                    ∧ Payload.actionOf line = .error failure := by
  have told : result = actionsAt tree (.ofBase settings base) v := by
    rw [← ends]
    exact (CommitLog.actions_yields id asked.keepsFiles).result_eq
  cases decoded : payloadsOf content with
  | none =>
      obtain ⟨detail, loaded⟩ := load_of_undecoded there decoded
      rw [actionsAt, loaded] at told
      obtain rfl : result = .error (.readFrom .malformedDocument .logRead detail (some v)) := told
      refine ⟨iff_of_true rfl nofun, fun _ => ?_, nofun⟩
      exact failsRead_error.mpr (Failure.readError?_readFrom _ _ _ _)
  | some lines =>
      rw [actionsAt, load_of_payloadsOf there decoded] at told
      obtain rfl : result = Payload.actionsOf lines := told
      refine ⟨?_, nofun, ?_⟩
      · rw [readsWhole_actionsOf_iff decoded]
        exact ⟨fun all _ same => Option.some.inj same ▸ all, fun all => all lines rfl⟩
      · intro others same
        cases same
        refine ⟨fun actions => sublist_of_actionsOf, fun failure failed => ?_⟩
        have isOfLine := actionsOf_raises lines failure failed
        exact ⟨isOfLine, Failure.readError?_eq_none isOfLine, exists_first_of_actionsOf failed⟩

/-- A file with a line that mentions no file action between two that do. -/
def samplePlain : String :=
  "\n".intercalate [r#"{"remove":{"path":"a"}}"#, "[]", r#"{"add":{"path":"b"}}"#]

def samplePlainTree : Tree :=
  storeOf (filesOf [(0, commitFile samplePlain 1000)])

theorem actions_readWhole_iff_samplePlain
    : ReadsWhole samplePlain.toUTF8 0
        ((CommitLog.actions samplePlainTree 0).run (.ofBase {} topPlace.base)).result := by
  have asked : Asked {} topPlace.base samplePlainTree (.ofBase {} topPlace.base) := .opened
  have there
      : samplePlainTree.find ((Place.ofBase {} topPlace.base).file 0)
        = .ok (.file samplePlain.toUTF8 (1000000 * 1000)) :=
    find_storeOf (by decide +kernel) List.lookup_cons_self
  have plain
      : ∀ line ∈ (payloadsOf samplePlain.toUTF8).getD [], PlainLine line := by
    decide +kernel
  rw [(actions_readWhole_iff asked there rfl).1]
  intro lines decoded
  rwa [decoded] at plain

/-- Files whose lines are not plain: an action without a path, a number, a number for an action, a
number for a path, and two actions on one line.
-/
def sampleMalformed : List (Int × String) :=
  [(0, r#"{"add":{}}"#), (1, "5"), (2, r#"{"add":5}"#), (3, r#"{"add":{"path":5}}"#),
    (4, r#"{"add":{"path":"a"},"remove":{"path":"b"}}"#)]

def sampleMalformedTree : Tree :=
  storeOf (filesOf (sampleMalformed.map fun (v, text) => (v, commitFile text 1000)))

/-- None of them is read as promised: the failures are not failed reads, and of two actions the
second is missing.
-/
theorem not_readsWhole_sampleMalformed
    : (sampleMalformed.filter fun (v, text) =>
          ReadsWhole text.toUTF8 v
            ((CommitLog.actions sampleMalformedTree v).run (.ofBase {} topPlace.base)).result)
        = []
      ∧ (sampleMalformed.map fun (v, _) =>
          ((CommitLog.actions sampleMalformedTree v).run (.ofBase {} topPlace.base)).result)
        = [.error (.missingKey "'path'"), .error .wrongType, .error .noSuchMember,
            .error (.invalid [{ place := ["path"], kind := .stringType }]),
            .ok [.add { path := "a" }]] := by
  decide +kernel

end Calls

end DeltaFeed.Log
