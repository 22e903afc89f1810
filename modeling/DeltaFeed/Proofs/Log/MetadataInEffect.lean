import DeltaFeed.Proofs.Log.Failures
import DeltaFeed.Proofs.Log.Past
import Mathlib.Data.List.Basic

/-! The metadata in effect as of a version of a log: those that were stated last, on any line of any
commit up to that version.
-/

namespace DeltaFeed.Log

open Store (Tree Path Node)

variable {tree : Tree} {place : Place} {provider : String} {v : Int}

-----------------------------------------------------------------------------------------
-- Stated metadata
-----------------------------------------------------------------------------------------

/-- (statedMetadata lines) are the metadata that some lines state, in order. What is empty states
nothing.
-/
def statedMetadata (lines : List Value) : List Value :=
  lines.filterMap fun line => (line.field? "metaData").filter (!·.isVacant)

/-- (statedUpTo tree place v) are the metadata that the commits up to a version state, in the order
of the versions and of their lines.
-/
def statedUpTo (tree : Tree) (place : Place) (v : Int) : List Value :=
  ((committed tree place).filter (· ≤ v)).flatMap fun u =>
    statedMetadata ((load tree place u).toOption.getD [])

/-- Metadata that a sound line states are recorded as they are read. -/
theorem map_metadataOf_of_sound {line : Value} (sound : SoundLine provider line)
    : ((line.field? "metaData").filter (!·.isVacant)).map (Payload.metadataOf provider)
      = (recordedMetadata? provider line).map .ok := by
  unfold recordedMetadata?
  cases stated : (line.field? "metaData").filter (!·.isVacant) with
  | none => rfl
  | some value =>
      obtain ⟨isField, solid⟩ := Option.filter_eq_some_iff.mp stated
      obtain ⟨metadata, valid⟩ :=
        (sound.metaData value isField).resolve_left (by simpa using solid)
      rw [Option.map_some, Option.bind_some, valid]
      rfl

/-- What a sound log records is what its files state, read one by one. -/
theorem map_metadataOf_statedUpTo (sound : SoundLog tree place provider) (v : Int)
    : (statedUpTo tree place v).map (Payload.metadataOf provider)
      = (((committed tree place).filter (· ≤ v)).flatMap
          fun u => (recorded tree place provider u).metadata).map .ok := by
  rw [statedUpTo, List.map_flatMap, List.map_flatMap]
  refine List.flatMap_congr fun u isPast => ?_
  obtain ⟨lines, loaded, fine⟩ := sound.files u (List.mem_filter.mp isPast).1
  have content : (load tree place u).toOption.getD [] = lines := by rw [loaded]; rfl
  rw [recorded, content, statedMetadata, List.map_filterMap, List.map_filterMap]
  exact List.filterMap_congr fun line member => map_metadataOf_of_sound (fine line member)

-----------------------------------------------------------------------------------------
-- What the files of a log tell
-----------------------------------------------------------------------------------------

section

variable {versions : List Int}

theorem metadataAt_told_of_not_mem (provider : String)
    (listed : listVersions tree place = .ok versions) (absent : v ∉ versions)
    : ∃ detail,
        (Call.metadataAt v).told tree place provider
          = .error (.read .versionNotFound detail (some v)) := by
  obtain ⟨detail, unknown⟩
      : ∃ detail,
          (historyOf tree place provider versions).commitAt v
            = .error (.read .versionNotFound detail (some v)) :=
    commitAt_historyOf_of_not_mem absent
  refine ⟨detail, ?_⟩
  simp only [Call.told, historyAt_of_listVersions provider listed, bind, Except.bind, unknown]

/-- The files tell the metadata that were stated last, or that there are none. -/
theorem metadataAt_told_of_mem (sound : SoundLog tree place provider)
    (listed : listVersions tree place = .ok versions) (member : v ∈ versions)
    : (Call.metadataAt v).told tree place provider
      = ((statedUpTo tree place v).getLast?.map (Payload.metadataOf provider)).getD
          (.error (.read .logRead "No metaData action found in the log" (some v))) := by
  obtain ⟨commit, found⟩
      : ∃ commit, (historyOf tree place provider versions).commitAt v = .ok commit :=
    (commitAt_historyOf member).imp fun _ found => found.1
  obtain rfl := committed_of_listVersions listed
  simp only [Call.told, historyAt_of_listVersions provider listed, bind, Except.bind, found]
  rw [metadataAt_historyOf (committed_sorted tree place), ← List.getLast?_map,
    ← List.getLast?_map, map_metadataOf_statedUpTo sound]

end

-----------------------------------------------------------------------------------------
-- Metadata in effect
-----------------------------------------------------------------------------------------

/-- (TellsMetadata provider versions stated v answer) says that an answer tells the metadata in
effect as of a version of a log: those that were stated last. It is a failed read of that version if
and only if the log does not have it, or nothing was stated.
-/
structure TellsMetadata (provider : String) (versions : List Int) (stated : List Value) (v : Int)
    (answer : Except Failure Metadata)
    : Prop where
  unknown : FailsRead .versionNotFound v answer ↔ v ∉ versions
  nothing : v ∈ versions → (FailsRead .logRead v answer ↔ stated = [])
  last
    : v ∈ versions
      → ∀ value, stated.getLast? = some value
      → ∃ metadata,
          Payload.metadataOf provider value = .ok metadata ∧ answer = .ok metadata

namespace TellsMetadata

variable {versions : List Int} {stated : List Value}

theorem of_unknown (absent : v ∉ versions) (detail : String)
    : TellsMetadata provider versions stated v
        (.error (.read .versionNotFound detail (some v))) where
  unknown := iff_of_true (failsRead_error.mpr (Failure.readError?_read _ _ _)) absent
  nothing member := absurd member absent
  last member := absurd member absent

theorem of_nothing (member : v ∈ versions) (detail : String)
    : TellsMetadata provider versions [] v (.error (.read .logRead detail (some v))) where
  unknown := by
    refine iff_of_false (fun fails => ?_) (absurd member)
    have same : ErrorCode.logRead = ErrorCode.versionNotFound :=
      congrArg Prod.fst (Option.some.inj (failsRead_error.mp fails))
    exact absurd same (by decide)
  nothing _ := iff_of_true (failsRead_error.mpr (Failure.readError?_read _ _ _)) rfl
  last _ := nofun

theorem of_last (member : v ∈ versions) {value : Value} {metadata : Metadata}
    (ends : stated.getLast? = some value)
    (read : Payload.metadataOf provider value = .ok metadata)
    : TellsMetadata provider versions stated v (.ok metadata) where
  unknown := iff_of_false (not_failsRead_ok metadata) (absurd member)
  nothing _ :=
    iff_of_false (not_failsRead_ok metadata) (List.ne_nil_of_mem (List.mem_of_getLast? ends))
  last _ _ same := ⟨metadata, Option.some.inj (ends.symm.trans same) ▸ read, rfl⟩

end TellsMetadata

/-- The files of a sound log tell the metadata in effect. -/
theorem tellsMetadata_told {versions : List Int} (sound : SoundLog tree place provider)
    (listed : listVersions tree place = .ok versions) (v : Int)
    : TellsMetadata provider versions (statedUpTo tree place v) v
        ((Call.metadataAt v).told tree place provider) := by
  by_cases member : v ∈ versions
  case neg =>
    obtain ⟨detail, told⟩ := metadataAt_told_of_not_mem provider listed member
    exact told ▸ .of_unknown member detail
  case pos =>
    rw [metadataAt_told_of_mem sound listed member]
    cases ends : (statedUpTo tree place v).getLast? with
    | none =>
        rw [List.getLast?_eq_none_iff.mp ends]
        exact .of_nothing member _
    | some value =>
        have isStated := List.mem_map_of_mem (f := Payload.metadataOf provider)
          (List.mem_of_getLast? ends)
        rw [map_metadataOf_statedUpTo sound] at isStated
        obtain ⟨metadata, _, read⟩ := List.mem_map.mp isStated
        rw [Option.map_some, Option.getD_some, ← read]
        exact .of_last member ends read.symm

/-- However a log was called while it grew, it answers with the metadata that were stated last up to
a version, whatever is stated later.
-/
theorem metadataAt_tells_last {settings : Settings} {base : Path} {log : CommitLog}
    {versions : List Int} (growing : Growing settings base tree log)
    (sound : SoundLog tree (.ofBase settings base) settings.defaultProvider)
    (listed : listVersions tree (.ofBase settings base) = .ok versions) (v : Int)
    : TellsMetadata settings.defaultProvider versions
        (statedUpTo tree (.ofBase settings base) v) v
        ((CommitLog.metadataAt tree v).run log).result := by
  obtain ⟨_, gone, _, intact, agrees⟩ := (growing.reaches sound).coherent
  rw [(CommitLog.metadataAt_yields (v := v) (intact rfl) sound agrees).result_eq]
  exact tellsMetadata_told sound listed v

/-- A first file that states metadata twice. -/
def sampleTwice : List (Int × Node) :=
  [(0, commitFile
    ("\n".intercalate [r#"{"metaData":{"id":"a"}}"#, r#"{"metaData":{"id":"b"}}"#]) 5)]

/-- The files after it: one with empty metadata, and one with others. -/
def sampleLater : List (Int × Node) :=
  [(1, commitFile r#"{"metaData":{}}"# 6), (2, commitFile r#"{"metaData":{"id":"c"}}"# 7)]

def sampleRestated : Tree :=
  storeOf (filesOf sampleTwice ++ filesOf sampleLater)

/-- What a commit stated last is in effect as of the next one, for a log that was asked before it
grew.
-/
theorem metadataAt_tells_last_sampleRestated
    : ∃ log,
        Growing {} topPlace.base sampleRestated log
        ∧ listVersions sampleRestated topPlace = .ok [0, 1, 2]
        ∧ TellsMetadata "parquet" [0, 1, 2] (statedUpTo sampleRestated topPlace 1) 1
            ((CommitLog.metadataAt sampleRestated 1).run log).result
        ∧ ((CommitLog.metadataAt sampleRestated 1).run log).result
          = .ok { tableId := some "b" } := by
  have grows
      : Grows topPlace (storeOf (filesOf sampleTwice)) sampleRestated (keys sampleLater) :=
    grows_storeOf (by decide +kernel) (by decide +kernel) (by decide +kernel)
  have growing
      : Growing {} topPlace.base sampleRestated
          (((Call.metadataAt 0).run (storeOf (filesOf sampleTwice))).run
            (.ofBase {} topPlace.base)).state :=
    .grown _ (.called (.metadataAt 0) (.opened _)) grows
  have listed : listVersions sampleRestated topPlace = .ok [0, 1, 2] := by decide +kernel
  have sound : SoundLog sampleRestated topPlace "parquet" := by decide +kernel
  have tells := metadataAt_tells_last growing sound listed 1
  refine ⟨_, growing, listed, tells, ?_⟩
  have stated
      : (statedUpTo sampleRestated topPlace 1).getLast?.map (Payload.metadataOf "parquet")
        = some (.ok { tableId := some "b" }) := by
    decide +kernel
  obtain ⟨value, last, read⟩ := Option.map_eq_some_iff.mp stated
  obtain ⟨metadata, same, answer⟩ := tells.last (by decide) value last
  exact answer.trans (same.symm.trans read)

end DeltaFeed.Log
