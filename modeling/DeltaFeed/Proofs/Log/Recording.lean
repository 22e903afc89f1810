import DeltaFeed.Log.CommitLog
import DeltaFeed.Proofs.Log.Listing
import DeltaFeed.Proofs.Outcome
import Mathlib.Data.List.TakeWhile

/-! What commit files record, and the history that it amounts to. A history grows by one commit
after the other, so that what it says of its versions stays as it is when later versions come.
-/

namespace DeltaFeed.Log

open Store (Tree)

-----------------------------------------------------------------------------------------
-- Sound commit files
-----------------------------------------------------------------------------------------

/-- (statedTime? line) is the time that the commit information of a line states as an integer. -/
def statedTime? (line : Value) : Option Int :=
  match (line.field? "commitInfo").bind (·.field? "inCommitTimestamp") with
  | some (.int millis) => some millis
  | _ => none

/-- (recordedMetadata? provider line) is the metadata that a line records, unless it is vacant. -/
def recordedMetadata? (provider : String) (line : Value) : Option Metadata :=
  ((line.field? "metaData").filter (!·.isVacant)).bind fun value =>
    (Payload.metadataOf provider value).toOption

/-- (SoundLine provider line) holds of a record whose commit information, if it is not vacant,
is a record, and whose metadata, if they are not vacant, are valid.
-/
structure SoundLine (provider : String) (line : Value) : Prop where
  isRecord : ∃ fields, line = .record fields
  commitInfo
    : ∀ info, line.field? "commitInfo" = some info
      → info.isVacant = true ∨ ∃ members, info = .record members
  metaData
    : ∀ value, line.field? "metaData" = some value
      → value.isVacant = true ∨ ∃ metadata, Payload.metadataOf provider value = .ok metadata

def isRecord : Value → Bool
  | .record _ => true
  | _ => false

/-- The test for records finds those that have fields. -/
theorem isRecord_iff {value : Value}
    : isRecord value = true ↔ ∃ fields, value = .record fields := by
  cases value <;> simp [isRecord]

theorem isOk_iff {α : Type} {result : Except Failure α}
    : result.isOk = true ↔ ∃ a, result = .ok a := by
  cases result <;> simp [Except.isOk, Except.toBool]

instance (provider : String) (line : Value) : Decidable (SoundLine provider line) :=
  decidable_of_iff
    (isRecord line
      ∧ (∀ info ∈ line.field? "commitInfo", info.isVacant = true ∨ isRecord info = true)
      ∧ ∀ value ∈ line.field? "metaData",
          value.isVacant = true ∨ (Payload.metadataOf provider value).isOk = true)
    (by
      simp only [isRecord_iff, isOk_iff]
      exact ⟨fun ⟨record, info, metadata⟩ => ⟨record, info, metadata⟩, fun sound =>
        ⟨sound.isRecord, sound.commitInfo, sound.metaData⟩⟩)

/-- On a sound line every key can be looked up, and what is vacant counts as absent. -/
theorem present_of_sound {provider : String} {line : Value} (sound : SoundLine provider line)
    (key : String)
    : Payload.present line key = .ok ((line.field? key).filter (!·.isVacant)) := by
  obtain ⟨fields, rfl⟩ := sound.isRecord
  rfl

/-- Nothing vacant states a time. -/
theorem statedTime?_of_vacant {line info : Value} (found : line.field? "commitInfo" = some info)
    (vacant : info.isVacant = true)
    : statedTime? line = none := by
  rw [statedTime?, found, Option.bind_some]
  cases info with
  | record members =>
      have empty : members = [] := List.isEmpty_iff.mp vacant
      rw [empty]
      rfl
  | _ => rfl

/-- Where a key can be looked up, the line is a record and the field is its own. -/
theorem present_eq_ok {line : Value} {key : String} {found : Option Value}
    (h : Payload.present line key = .ok found)
    : (line.field? key).filter (!·.isVacant) = found := by
  cases line with
  | record fields => exact Except.ok.inj h
  | _ => cases h

/-- So it is where the member of a value can be looked up. -/
theorem member_eq_ok {value : Value} {key : String} {found : Option Value}
    (h : Payload.member value key = .ok found)
    : value.field? key = found := by
  cases value with
  | record fields => exact Except.ok.inj h
  | _ => cases h

/-- Where a line can be read, the time that it states decides, or else the lines after it. -/
theorem statedMillis_cons_eq_ok {line : Value} {rest : List Value} {stated : Option Int}
    (h : Payload.statedMillis (line :: rest) = .ok stated)
    : match statedTime? line with
      | some millis => stated = some millis
      | none => Payload.statedMillis rest = .ok stated := by
  rw [Payload.statedMillis] at h
  obtain ⟨info, present, h⟩ := bind_eq_ok.mp h
  have isField := present_eq_ok present
  cases info with
  | none =>
      have nothing : statedTime? line = none := by
        cases found : line.field? "commitInfo" with
        | none => simp [statedTime?, found]
        | some info =>
            rw [found] at isField
            exact statedTime?_of_vacant found (by simpa using Option.filter_eq_none_iff.mp isField)
      rw [nothing]
      exact h
  | some info =>
      obtain ⟨found, _⟩ := Option.filter_eq_some_iff.mp isField
      obtain ⟨time, isMember, h⟩ := bind_eq_ok.mp h
      rw [statedTime?, found, Option.bind_some, member_eq_ok isMember]
      cases time with
      | none => exact h
      | some value =>
          cases value with
          | int millis => exact (Except.ok.inj h).symm
          | _ => exact h

/-- Where a time is read, it is that of the first line that states one. -/
theorem findSome?_of_statedMillis {lines : List Value} {stated : Option Int}
    (h : Payload.statedMillis lines = .ok stated)
    : lines.findSome? statedTime? = stated := by
  induction lines with
  | nil => exact Except.ok.inj h
  | cons line rest ih =>
      have first := statedMillis_cons_eq_ok h
      rw [List.findSome?_cons]
      cases time : statedTime? line with
      | none => exact ih (by simpa [time] using first)
      | some millis => simpa [time, eq_comm] using first

/-- The times of sound lines can be read. -/
theorem exists_statedMillis {provider : String} {lines : List Value}
    (sound : ∀ line ∈ lines, SoundLine provider line)
    : ∃ stated, Payload.statedMillis lines = .ok stated := by
  induction lines with
  | nil => exact ⟨none, rfl⟩
  | cons line rest ih =>
      have here := sound line List.mem_cons_self
      have later := ih fun line member => sound line (List.mem_cons_of_mem _ member)
      rw [Payload.statedMillis, present_of_sound here]
      cases found : (line.field? "commitInfo").filter (!·.isVacant) with
      | none => exact later
      | some info =>
          obtain ⟨isField, solid⟩ := Option.filter_eq_some_iff.mp found
          obtain ⟨members, rfl⟩ :=
            (here.commitInfo info isField).resolve_left (by simpa using solid)
          have member
              : Payload.member (.record members) "inCommitTimestamp"
                = .ok (members.lookup "inCommitTimestamp") := rfl
          simp only [bind, Except.bind, member]
          split
          · exact ⟨_, rfl⟩
          · exact later

/-- The time of a sound commit file is that of the first line that states one. -/
theorem statedMillis_of_sound {provider : String} {lines : List Value}
    (sound : ∀ line ∈ lines, SoundLine provider line)
    : Payload.statedMillis lines = .ok (lines.findSome? statedTime?) := by
  obtain ⟨stated, read⟩ := exists_statedMillis sound
  rw [read, findSome?_of_statedMillis read]

-----------------------------------------------------------------------------------------
-- The history of recorded commits
-----------------------------------------------------------------------------------------

/-- What the history keeps of a commit file. -/
structure Recorded where
  version : Int
  /-- The time of the commit in milliseconds, before it is adjusted. -/
  raw : Int
  /-- The metadata that the file records, in order. -/
  metadata : List Metadata

/-- (recorded tree place provider version) is what the file of a version records: the time that it
states, or else the time of its modification, and its metadata.
-/
def recorded (tree : Tree) (place : Place) (provider : String) (version : Int) : Recorded :=
  let lines := (load tree place version).toOption.getD []
  let modified := (modifiedMillis tree place version).toOption.getD 0
  { version
    raw := (lines.findSome? statedTime?).getD modified
    metadata := lines.filterMap (recordedMetadata? provider) }

/-- (after last raw) is a time after the last one: the given one if it is later, and else one
millisecond after the last.
-/
def after (last : Option Int) (raw : Int) : Int :=
  match last with
  | some last => if raw ≤ last then last + 1 else raw
  | none => raw

/-- (ascending last raws) are times that strictly increase from the last one before them. -/
def ascending (last : Option Int) : List Int → List Int
  | [] => []
  | raw :: rest => after last raw :: ascending (some (after last raw)) rest

/-- (timed last commits) are recorded commits with the times that they get after the last one. -/
def timed (last : Option Int) (commits : List Recorded) : List Commit :=
  List.zipWith
    (fun commit millis => { version := commit.version, timestamp := .utc (1000 * millis) })
    commits (ascending last (commits.map (·.raw)))

namespace History

def noted (history : History) (version : Int) (metadata : Metadata) : History :=
  (history.announce version).record version metadata

/-- (history.grown commit) takes in all that a commit file records. -/
def grown (history : History) (commit : Recorded) : History :=
  let millis := history.adjusted commit.raw
  let next : Commit := { version := commit.version, timestamp := .utc (1000 * millis) }
  commit.metadata.foldl (·.noted commit.version ·)
    ((history.schedule commit.version millis).commit next)

def ofRecorded (commits : List Recorded) : History :=
  commits.foldl grown {}

/-- The history of more commits grows from that of the first ones. -/
theorem ofRecorded_append (commits more : List Recorded)
    : ofRecorded (commits ++ more) = more.foldl grown (ofRecorded commits) := by
  simp [ofRecorded]

variable {history : History} {version : Int} {metadata : List Metadata}

/-- The time that a history gives a commit is the one after its last time. -/
theorem adjusted_eq_after (history : History) (raw : Int)
    : history.adjusted raw = after history.millis.getLast? raw := by
  cases last : history.millis.getLast? with
  | none => simp [adjusted, after, last]
  | some millis => simp [adjusted, after, last]

/-- Metadata add no commit to a history, by induction on the metadata. -/
theorem foldl_noted_commits
    : (metadata.foldl (·.noted version ·) history).commits = history.commits := by
  induction metadata generalizing history with
  | nil => rfl
  | cons first rest ih => exact ih

/-- Metadata add no time to a history. -/
theorem foldl_noted_millis
    : (metadata.foldl (·.noted version ·) history).millis = history.millis := by
  induction metadata generalizing history with
  | nil => rfl
  | cons first rest ih => exact ih

theorem foldl_noted_positions
    : (metadata.foldl (·.noted version ·) history).positions = history.positions := by
  induction metadata generalizing history with
  | nil => rfl
  | cons first rest ih => exact ih

/-- Each metadata adds its version once more, by induction on the metadata. -/
theorem foldl_noted_metadataVersions
    : (metadata.foldl (·.noted version ·) history).metadataVersions
      = history.metadataVersions ++ List.replicate metadata.length version := by
  induction metadata generalizing history with
  | nil => simp
  | cons first rest ih =>
      rw [List.foldl_cons, ih]
      simp [noted, announce, record, List.replicate_succ]

/-- The last metadata of a version count; those of other versions stay. -/
theorem foldl_noted_metadata (other : Int)
    : (metadata.foldl (·.noted version ·) history).metadata.lookup other
      = if other = version then metadata.getLast?.or (history.metadata.lookup other)
        else history.metadata.lookup other := by
  induction metadata generalizing history with
  | nil => simp
  | cons first rest ih =>
      rw [List.foldl_cons, ih]
      simp only [noted, announce, record, lookup_put]
      by_cases same : other = version
      · cases rest with
        | nil => simp [same]
        | cons second more => simp [same, List.getLast?_cons]
      · simp [same]

@[simp] theorem grown_commits (history : History) (commit : Recorded)
    : (history.grown commit).commits
      = history.commits
        ++ [{
          version := commit.version
          timestamp := .utc (1000 * after history.millis.getLast? commit.raw) }] := by
  simp [grown, foldl_noted_commits, schedule, History.commit, adjusted_eq_after]

@[simp] theorem grown_millis (history : History) (commit : Recorded)
    : (history.grown commit).millis
      = history.millis ++ [after history.millis.getLast? commit.raw] := by
  simp [grown, foldl_noted_millis, schedule, History.commit, adjusted_eq_after]

@[simp] theorem grown_positions (history : History) (commit : Recorded)
    : (history.grown commit).positions
      = put commit.version history.commits.length history.positions := by
  simp [grown, foldl_noted_positions, schedule, History.commit]

@[simp] theorem grown_metadataVersions (history : History) (commit : Recorded)
    : (history.grown commit).metadataVersions
      = history.metadataVersions
        ++ List.replicate commit.metadata.length commit.version := by
  simp [grown, foldl_noted_metadataVersions, schedule, History.commit]

/-- The last metadata of a commit count for its version; those of other versions stay. -/
theorem grown_metadata (history : History) (commit : Recorded) (other : Int)
    : (history.grown commit).metadata.lookup other
      = if other = commit.version
        then commit.metadata.getLast?.or (history.metadata.lookup other)
        else history.metadata.lookup other := by
  simp [grown, foldl_noted_metadata, schedule, History.commit]

/-- The times of a history go on to ascend. -/
theorem foldl_grown_millis (history : History) (commits : List Recorded)
    : (commits.foldl grown history).millis
      = history.millis ++ ascending history.millis.getLast? (commits.map (·.raw)) := by
  induction commits generalizing history with
  | nil => simp [ascending]
  | cons commit rest ih => simp [ih, ascending]

/-- Later commits come after those that a history has. -/
theorem foldl_grown_commits (history : History) (commits : List Recorded)
    : (commits.foldl grown history).commits
      = history.commits ++ timed history.millis.getLast? commits := by
  induction commits generalizing history with
  | nil => simp [timed]
  | cons commit rest ih => simp [ih, timed, ascending]

-----------------------------------------------------------------------------------------
-- Looking up the commit and the metadata of a version
-----------------------------------------------------------------------------------------

/-- A history is indexed if each position leads to a commit of its version, and each commit can be
found.
-/
structure Indexed (history : History) : Prop where
  located
    : ∀ {version position}, history.positions.lookup version = some position
      → ∃ commit, history.commits[position]? = some commit ∧ commit.version = version
  listed : ∀ commit ∈ history.commits, (history.positions.lookup commit.version).isSome

theorem Indexed.grown {history : History} (h : history.Indexed) (commit : Recorded)
    : (history.grown commit).Indexed where
  located := by
    intro version position found
    rw [grown_positions, lookup_put] at found
    split at found
    case isTrue same =>
      cases found
      exact ⟨_, by rw [grown_commits]; exact List.getElem?_concat_length, same.symm⟩
    case isFalse other =>
      obtain ⟨earlier, there, same⟩ := h.located found
      refine ⟨earlier, ?_, same⟩
      rw [grown_commits]
      exact List.getElem?_append_left (List.getElem?_eq_some_iff.mp there).1 ▸ there
  listed := by
    intro earlier member
    rw [grown_positions, lookup_put]
    split
    case isTrue => rfl
    case isFalse other =>
      rw [grown_commits, List.mem_append, List.mem_singleton] at member
      rcases member with member | rfl
      · exact h.listed earlier member
      · exact absurd rfl other

/-- Growing by any commits keeps the positions in order, by induction on the commits. -/
theorem Indexed.foldl_grown {history : History} (h : history.Indexed) (commits : List Recorded)
    : (commits.foldl History.grown history).Indexed := by
  induction commits generalizing history with
  | nil => exact h
  | cons commit rest ih => exact ih (h.grown commit)

/-- The positions of every history of recorded commits are in order. -/
theorem indexed_ofRecorded (commits : List Recorded)
    : (ofRecorded commits).Indexed :=
  Indexed.foldl_grown ⟨by intro version position found; simp at found, by simp⟩ commits

/-- A version whose commit is told has a position. -/
theorem isSome_of_commitAt {history : History} {version : Int} {commit : Commit}
    (h : history.commitAt version = .ok commit)
    : (history.positions.lookup version).isSome := by
  unfold commitAt at h
  split at h
  case h_1 => cases h
  case h_2 position found => simp [found]

/-- A version with a commit has its commit at hand. -/
theorem Indexed.commitAt_of_mem {history : History} (h : history.Indexed) {commit : Commit}
    (member : commit ∈ history.commits)
    : ∃ found ∈ history.commits,
        found.version = commit.version ∧ history.commitAt commit.version = .ok found := by
  obtain ⟨position, listed⟩ := Option.isSome_iff_exists.mp (h.listed commit member)
  obtain ⟨found, there, same⟩ := h.located listed
  exact ⟨found, List.mem_of_getElem? there, same, by simp [commitAt, listed, there]⟩

/-- Commits of other versions leave the position of a version as it is. -/
theorem foldl_grown_positions (history : History) {commits : List Recorded} {version : Int}
    (other : version ∉ commits.map (·.version))
    : (commits.foldl grown history).positions.lookup version
      = history.positions.lookup version := by
  induction commits generalizing history with
  | nil => rfl
  | cons commit rest ih =>
      simp only [List.map_cons, List.mem_cons, not_or] at other
      rw [List.foldl_cons, ih _ other.2, grown_positions, lookup_put, if_neg other.1]

/-- Commits of other versions that come later change nothing for a version. -/
theorem Indexed.commitAt_foldl_grown {history : History} (h : history.Indexed)
    {commits : List Recorded} {version : Int} (other : version ∉ commits.map (·.version))
    : (commits.foldl History.grown history).commitAt version = history.commitAt version := by
  simp only [commitAt, foldl_grown_positions history other]
  cases listed : history.positions.lookup version with
  | none => rfl
  | some position =>
      obtain ⟨found, there, _⟩ := h.located listed
      have later (more : List Commit)
          : (history.commits ++ more)[position]? = history.commits[position]? :=
        List.getElem?_append_left (List.getElem?_eq_some_iff.mp there).1
      simp only [foldl_grown_commits, later, there]

/-- Each commit adds its version once for each of its metadata. -/
theorem foldl_grown_metadataVersions (history : History) (commits : List Recorded)
    : (commits.foldl grown history).metadataVersions
      = history.metadataVersions
        ++ commits.flatMap fun commit =>
            List.replicate commit.metadata.length commit.version := by
  induction commits generalizing history with
  | nil => simp
  | cons commit rest ih => simp [ih]

/-- Commits of other versions leave the metadata of a version as they are. -/
theorem foldl_grown_metadata (history : History) {commits : List Recorded} {version : Int}
    (other : version ∉ commits.map (·.version))
    : (commits.foldl grown history).metadata.lookup version
      = history.metadata.lookup version := by
  induction commits generalizing history with
  | nil => rfl
  | cons commit rest ih =>
      simp only [List.map_cons, List.mem_cons, not_or] at other
      rw [List.foldl_cons, ih _ other.2, grown_metadata, if_neg other.1]

/-- Metadata of later versions are not in effect as of a version. -/
theorem metadataAt_foldl_grown (history : History) {commits : List Recorded} {version : Int}
    (later : ∀ commit ∈ commits, version < commit.version)
    : (commits.foldl grown history).metadataAt version = history.metadataAt version := by
  have past
      : (commits.foldl grown history).metadataVersions.takeWhile (· ≤ version)
        = history.metadataVersions.takeWhile (· ≤ version) := by
    rw [foldl_grown_metadataVersions, List.takeWhile_append]
    split
    case isFalse => rfl
    case isTrue all =>
      have none : (commits.flatMap fun commit =>
          List.replicate commit.metadata.length commit.version).takeWhile (· ≤ version) = [] := by
        apply List.takeWhile_eq_nil_iff.mpr
        intro nonempty
        obtain ⟨commit, member, same⟩ := List.mem_flatMap.mp (List.getElem_mem nonempty)
        have after := later commit member
        rw [← List.eq_of_mem_replicate same] at after
        simpa only [List.get_eq_getElem, decide_eq_true_eq, Int.not_le] using after
      rw [none, List.append_nil, (List.takeWhile_prefix _).eq_of_length all]
  simp only [metadataAt, past]
  cases found : (history.metadataVersions.takeWhile (· ≤ version)).getLast? with
  | none => rfl
  | some recorded =>
      have before : recorded ≤ version := by
        simpa using List.mem_takeWhile_imp (List.mem_of_getLast? found)
      have other : recorded ∉ commits.map (·.version) := by
        intro member
        obtain ⟨commit, isCommit, rfl⟩ := List.mem_map.mp member
        exact absurd (later commit isCommit) (by omega)
      simp only [foldl_grown_metadata history other]

/-- The metadata that a commit records last are in effect from then on. -/
theorem metadataAt_grown {history : History} {commit : Recorded} {version : Int}
    (past : ∀ v ∈ history.metadataVersions, v ≤ version) (here : commit.version ≤ version)
    : (history.grown commit).metadataAt version
      = (commit.metadata.getLast?.map .ok).getD (history.metadataAt version) := by
  have all : (history.grown commit).metadataVersions.takeWhile (· ≤ version)
      = history.metadataVersions ++ List.replicate commit.metadata.length commit.version := by
    rw [grown_metadataVersions]
    apply List.takeWhile_eq_self_iff.mpr
    intro v member
    rcases List.mem_append.mp member with earlier | same
    · simpa using past v earlier
    · simpa [List.eq_of_mem_replicate same] using here
  have before : history.metadataVersions.takeWhile (· ≤ version) = history.metadataVersions :=
    List.takeWhile_eq_self_iff.mpr fun v member => by simpa using past v member
  cases last : commit.metadata.getLast? with
  | none =>
      have none : commit.metadata = [] := List.getLast?_eq_none_iff.mp last
      simp only [metadataAt, all, before, none, grown_metadata]
      simp
  | some metadata =>
      obtain ⟨others, split⟩ := List.getLast?_eq_some_iff.mp last
      have ends : (history.metadataVersions
          ++ List.replicate commit.metadata.length commit.version).getLast?
          = some commit.version := by
        simp [split, List.replicate_succ', ← List.append_assoc]
      simp only [metadataAt, all, ends, grown_metadata, last]
      simp

theorem metadataAt_foldl_grown_past {history : History} {commits : List Recorded} {version : Int}
    (past : ∀ v ∈ history.metadataVersions, v ≤ version)
    (here : ∀ commit ∈ commits, commit.version ≤ version)
    : (commits.foldl grown history).metadataAt version
      = ((commits.flatMap (·.metadata)).getLast?.map .ok).getD (history.metadataAt version) := by
  induction commits generalizing history with
  | nil => rfl
  | cons commit rest ih =>
      have first := here commit List.mem_cons_self
      have next : ∀ v ∈ (history.grown commit).metadataVersions, v ≤ version := by
        intro v member
        rw [grown_metadataVersions] at member
        rcases List.mem_append.mp member with earlier | same
        · exact past v earlier
        · exact List.eq_of_mem_replicate same ▸ first
      rw [List.foldl_cons, ih next fun c member => here c (List.mem_cons_of_mem _ member),
        metadataAt_grown past first, List.flatMap_cons, List.getLast?_append]
      cases (rest.flatMap (·.metadata)).getLast? <;> rfl

/-- The metadata in effect are those that were recorded last, if there are any. -/
theorem metadataAt_ofRecorded {commits later : List Recorded} {version : Int}
    (past : ∀ commit ∈ commits, commit.version ≤ version)
    (after : ∀ commit ∈ later, version < commit.version)
    : (ofRecorded (commits ++ later)).metadataAt version
      = ((commits.flatMap (·.metadata)).getLast?.map .ok).getD
          (.error (.read .logRead "No metaData action found in the log" (some version))) := by
  rw [ofRecorded_append, metadataAt_foldl_grown _ after, ofRecorded,
    metadataAt_foldl_grown_past (by simp) past]
  rfl

end History

-----------------------------------------------------------------------------------------
-- Versions and times of a history
-----------------------------------------------------------------------------------------

/-- Adjusting the times of commits keeps their versions. -/
theorem timed_versions (last : Option Int) (commits : List Recorded)
    : (timed last commits).map (·.version) = commits.map (·.version) := by
  induction commits generalizing last with
  | nil => rfl
  | cons commit rest ih => exact congrArg (commit.version :: ·) (ih _)

/-- The time after a last one is the least that is later and not before the given one. -/
theorem after_le_iff {last raw millis : Int}
    : after (some last) raw ≤ millis ↔ last < millis ∧ raw ≤ millis := by
  unfold after
  dsimp only
  split <;> omega

/-- Times are later than the last one before them. -/
theorem lt_of_mem_ascending {last : Int} {raws : List Int} {millis : Int}
    (member : millis ∈ ascending (some last) raws)
    : last < millis := by
  induction raws generalizing last with
  | nil => cases member
  | cons raw rest ih =>
      have next : last < after (some last) raw := (after_le_iff.mp (Int.le_refl _)).1
      rcases List.mem_cons.mp member with rfl | member
      · exact next
      · exact Int.lt_trans next (ih member)

/-- Adjusted times strictly increase. -/
theorem ascending_pairwise (last : Option Int) (raws : List Int)
    : (ascending last raws).Pairwise (· < ·) := by
  induction raws generalizing last with
  | nil => exact List.Pairwise.nil
  | cons raw rest ih => exact List.pairwise_cons.mpr ⟨fun _ => lt_of_mem_ascending, ih _⟩

namespace History

/-- The history of recorded commits has them in order, at their adjusted times. -/
theorem ofRecorded_commits (commits : List Recorded)
    : (ofRecorded commits).commits = timed none commits := by
  simp [ofRecorded, foldl_grown_commits]

/-- The times in the history of recorded commits ascend. -/
theorem ofRecorded_millis (commits : List Recorded)
    : (ofRecorded commits).millis = ascending none (commits.map (·.raw)) := by
  simp [ofRecorded, foldl_grown_millis]

/-- The history of recorded commits has just their versions. -/
theorem ofRecorded_versions (commits : List Recorded)
    : (ofRecorded commits).commits.map (·.version) = commits.map (·.version) := by
  rw [ofRecorded_commits, timed_versions]

/-- The last version that is known is that of the last commit, or -1. -/
theorem known_eq (history : History)
    : history.known = ((history.commits.map (·.version)).getLast?).getD (-1) := by
  simp [known]

end History

-----------------------------------------------------------------------------------------
-- What can be read of a commit file
-----------------------------------------------------------------------------------------

/-- (timeAt tree place version) is the time of a commit in milliseconds, before it is adjusted: the
time that its file states, or else the time of its modification.
-/
def timeAt (tree : Tree) (place : Place) (version : Int) : Except Failure Int := do
  match ← Payload.statedMillis (← load tree place version) with
  | some millis => return millis
  | none => modifiedMillis tree place version

def metadataIn (provider : String) : List Value → Except Failure (List Metadata)
  | [] => .ok []
  | line :: rest => do
    match ← Payload.present line "metaData" with
    | some value => return (← Payload.metadataOf provider value) :: (← metadataIn provider rest)
    | none => metadataIn provider rest

/-- A line without metadata adds none to those of the lines after it. -/
theorem metadataIn_cons_none {line : Value} {rest : List Value}
    (absent : Payload.present line "metaData" = .ok none)
    : metadataIn provider (line :: rest) = metadataIn provider rest := by
  rw [metadataIn, absent]
  rfl

/-- A line with metadata that can be read adds them in front. -/
theorem metadataIn_cons_some {line value : Value} {rest : List Value} {first : Metadata}
    (present : Payload.present line "metaData" = .ok (some value))
    (read : Payload.metadataOf provider value = .ok first)
    : metadataIn provider (line :: rest) = (first :: ·) <$> metadataIn provider rest := by
  rw [metadataIn, present]
  simp only [bind, Except.bind, read]
  rfl

variable {tree : Tree} {place : Place} {provider : String} {v : Int}

/-- A time that can be read is the one that the file records. -/
theorem raw_of_timeAt {raw : Int} (h : timeAt tree place v = .ok raw)
    : (recorded tree place provider v).raw = raw := by
  obtain ⟨lines, loaded, h⟩ := bind_eq_ok.mp h
  obtain ⟨stated, read, h⟩ := bind_eq_ok.mp h
  simp only [recorded, loaded, Except.toOption, Option.getD_some, findSome?_of_statedMillis read]
  cases stated with
  | some millis => exact Except.ok.inj h
  | none =>
      dsimp only at h
      rw [h]
      rfl

/-- Metadata that can be read are those that the lines record, by induction on the lines. -/
theorem filterMap_of_metadataIn {lines : List Value} {metadata : List Metadata}
    (h : metadataIn provider lines = .ok metadata)
    : lines.filterMap (recordedMetadata? provider) = metadata := by
  induction lines generalizing metadata with
  | nil => exact Except.ok.inj h
  | cons line rest ih =>
      rw [metadataIn] at h
      obtain ⟨found, present, h⟩ := bind_eq_ok.mp h
      have isField := present_eq_ok present
      cases found with
      | none =>
          have nothing : recordedMetadata? provider line = none := by
            simp [recordedMetadata?, isField]
          rw [List.filterMap_cons_none nothing, ih h]
      | some value =>
          obtain ⟨first, read, h⟩ := bind_eq_ok.mp h
          obtain ⟨others, later, h⟩ := bind_eq_ok.mp h
          have isFirst : recordedMetadata? provider line = some first := by
            simp [recordedMetadata?, isField, read, Except.toOption]
          rw [List.filterMap_cons_some isFirst, ih later]
          exact Except.ok.inj h

/-- The metadata of sound lines can be read. -/
theorem metadataIn_of_sound {lines : List Value}
    (sound : ∀ line ∈ lines, SoundLine provider line)
    : metadataIn provider lines = .ok (lines.filterMap (recordedMetadata? provider)) := by
  induction lines with
  | nil => rfl
  | cons line rest ih =>
      have here := sound line List.mem_cons_self
      have later := ih fun line member => sound line (List.mem_cons_of_mem _ member)
      have present := present_of_sound here "metaData"
      cases found : (line.field? "metaData").filter (!·.isVacant) with
      | none =>
          have nothing : recordedMetadata? provider line = none := by
            simp [recordedMetadata?, found]
          rw [List.filterMap_cons_none nothing, metadataIn_cons_none (found ▸ present), later]
      | some value =>
          obtain ⟨isField, solid⟩ := Option.filter_eq_some_iff.mp found
          obtain ⟨metadata, valid⟩ :=
            (here.metaData value isField).resolve_left (by simpa using solid)
          have some : recordedMetadata? provider line = some metadata := by
            simp [recordedMetadata?, found, valid, Except.toOption]
          rw [List.filterMap_cons_some some, metadataIn_cons_some (found ▸ present) valid, later]
          rfl

/-- (gain tree place provider last version) is what the file of a version adds to a history whose
last time is given, if all of it can be taken in.
-/
def gain (tree : Tree) (place : Place) (provider : String) (last : Option Int) (version : Int)
    : Except Failure Recorded := do
  let raw ← timeAt tree place version
  let _ ← Time.Timestamp.ofMillis (after last raw)
  let metadata ← metadataIn provider (← load tree place version)
  return { version, raw, metadata }

/-- The commit of a version is gained only if its time can be read. -/
theorem timeAt_of_gain {last : Option Int} {commit : Recorded}
    (h : gain tree place provider last v = .ok commit)
    : ∃ raw, timeAt tree place v = .ok raw := by
  obtain ⟨raw, timed, _⟩ := bind_eq_ok.mp h
  exact ⟨raw, timed⟩

/-- A version whose time cannot be read is not gained, and fails as its time does. -/
theorem gain_of_untimed {last : Option Int} {failure : Failure}
    (h : timeAt tree place v = .error failure)
    : gain tree place provider last v = .error failure := by
  simp only [gain, h, bind, Except.bind]

/-- What is taken in of a file is what the file records. -/
theorem recorded_of_gain {last : Option Int} {commit : Recorded}
    (h : gain tree place provider last v = .ok commit)
    : recorded tree place provider v = commit := by
  obtain ⟨raw, timed, h⟩ := bind_eq_ok.mp h
  obtain ⟨_, _, h⟩ := bind_eq_ok.mp h
  obtain ⟨lines, loaded, h⟩ := bind_eq_ok.mp h
  obtain ⟨metadata, read, h⟩ := bind_eq_ok.mp h
  cases h
  have version : (recorded tree place provider v).version = v := rfl
  have sameRaw : (recorded tree place provider v).raw = raw := raw_of_timeAt timed
  have sameMetadata : (recorded tree place provider v).metadata = metadata := by
    simp [recorded, loaded, Except.toOption, filterMap_of_metadataIn read]
  rw [← sameRaw, ← sameMetadata]
  rfl

end DeltaFeed.Log
