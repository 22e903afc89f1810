import DeltaFeed.Log.Replay
import DeltaFeed.Proofs.Log.Coherence

/-! What the files of a log tell, as functions of the files alone, and the operations that yield
it. A log that agrees with its files answers what they tell, and goes on to agree with them.
-/

namespace DeltaFeed.Log

open Store (Tree Path)

-----------------------------------------------------------------------------------------
-- What the files tell
-----------------------------------------------------------------------------------------

/-- (historyAt tree place provider) is the history of a log as its files tell it. -/
def historyAt (tree : Tree) (place : Place) (provider : String) : Except Failure History :=
  return historyOf tree place provider (← listVersions tree place)

/-- (activeIn history time inclusive) is the latest commit of a history before a time, or at it.
-/
def activeIn (history : History) (time : Time.Timestamp) (inclusive : Bool)
    : Except Failure Commit :=
  match history.activeAt time inclusive with
  | some commit => .ok commit
  | none => .error .noSuchPosition

/-- (actionsAt tree place version) are the file actions in the file of a version. -/
def actionsAt (tree : Tree) (place : Place) (version : Int) : Except Failure (List Action) := do
  Payload.actionsOf (← load tree place version)

/-- (replayedAt tree place live versions) are the live files after some versions. -/
def replayedAt (tree : Tree) (place : Place) (live : LiveFiles)
    : List Int → Except Failure LiveFiles
  | [] => return live
  | version :: rest => do
    let fileActions ← actionsAt tree place version
    replayedAt tree place (live.replay place.base.text fileActions) rest

/-- (liveFilesAt tree place version) are the live files at a version of a log that is there from
version 0 on.
-/
def liveFilesAt (tree : Tree) (place : Place) (version : Int) : Except Failure LiveFiles := do
  let past := (← listVersions tree place).filter (· ≤ version)
  if past.head? ≠ some 0 then
    .error (.read .logRead
      "Log does not start at version 0; checkpoint replay is not supported" (some version))
  else replayedAt tree place [] past

theorem historyAt_of_listVersions {tree : Tree} {place : Place} {versions : List Int}
    (provider : String) (listed : listVersions tree place = .ok versions)
    : historyAt tree place provider = .ok (historyOf tree place provider versions) := by
  rw [historyAt, listed]
  rfl

namespace CommitLog

variable {tree : Tree} {place : Place} {provider : String} {gone : Int → Prop}
  {history : History} {log : CommitLog} {v : Int}

/-- A refreshed log has the history that the files tell. -/
theorem refresh_yields_historyAt (apart : ∀ v ∈ committed tree place, ¬gone v)
    (sound : SoundLog tree place provider) (h : Agrees tree place provider gone log)
    : (refresh tree).Yields log ((fun _ => ()) <$> historyAt tree place provider)
        (fun log => Agrees tree place provider gone log
          ∧ ∀ history, historyAt tree place provider = .ok history
            → Keeps tree place provider gone history log) := by
  cases listed : listVersions tree place with
  | error failure =>
      have none : historyAt tree place provider = .error failure := by
        simp [historyAt, listed, bind, Except.bind]
      rw [none]
      exact (refresh_yields_error listed h).mono fun _ agrees => ⟨agrees, by simp⟩
  | ok all =>
      have told := historyAt_of_listVersions provider listed
      rw [told]
      refine (refresh_yields apart sound listed h).mono fun _ keeps => ⟨⟨_, keeps, ?_⟩, ?_⟩
      · rw [← committed_of_listVersions listed]
        exact Or.inl (known_historyOf tree place provider)
      · intro history same
        cases same
        exact keeps

/-- What is read off a refreshed log is what the files tell. -/
theorem refreshed_yields {α : Type} (answer : History → Except Failure α)
    {next : CommitLog → Op CommitLog α} {Q : CommitLog → Prop}
    (apart : ∀ v ∈ committed tree place, ¬gone v) (sound : SoundLog tree place provider)
    (h : Agrees tree place provider gone log)
    (failed
      : ∀ failure log, historyAt tree place provider = .error failure
        → Agrees tree place provider gone log
        → Q log)
    (read
      : ∀ history log, historyAt tree place provider = .ok history
        → Keeps tree place provider gone history log
        → Agrees tree place provider gone log
        → (next log).Yields log (answer history) Q)
    : (do refresh tree; next (← .current)).Yields log
        (historyAt tree place provider >>= answer) Q := by
  have refreshed := refresh_yields_historyAt apart sound h
  cases told : historyAt tree place provider with
  | error failure =>
      rw [told] at refreshed
      exact .bind_error (refreshed.mono fun log after => failed failure log told after.1)
  | ok history =>
      rw [told] at refreshed
      apply Op.Yields.bind refreshed
      intro log after
      apply Op.Yields.bind_current
      exact read history log told (after.2 history rfl) after.1

theorem commits_yields (apart : ∀ v ∈ committed tree place, ¬gone v)
    (sound : SoundLog tree place provider) (h : Agrees tree place provider gone log)
    : (commits tree).Yields log (History.commits <$> historyAt tree place provider)
        (Agrees tree place provider gone) := by
  refine refreshed_yields (fun history => .ok history.commits) apart sound h
    (fun _ _ _ agrees => agrees) ?_
  intro history log told keeps agrees
  rcases keeps with ⟨_, _, rfl, _⟩
  exact .pure _ agrees

theorem activeCommit_yields (apart : ∀ v ∈ committed tree place, ¬gone v)
    (sound : SoundLog tree place provider) (h : Agrees tree place provider gone log)
    (time : Time.Timestamp) (inclusive : Bool)
    : (activeCommit tree time inclusive).Yields log
        (do
          let utc ← time.toUtc
          activeIn (← historyAt tree place provider) utc inclusive)
        (Agrees tree place provider gone) := by
  apply Op.Yields.seq (.ofResult time.toUtc h) (fun _ agrees => agrees)
  intro utc log _ agrees
  refine refreshed_yields (activeIn · utc inclusive) apart sound agrees
    (fun _ _ _ agrees => agrees) ?_
  intro history log told keeps agrees
  rcases keeps with ⟨_, _, rfl, _⟩
  unfold activeIn
  cases log.history.activeAt utc inclusive with
  | some commit => exact .pure commit agrees
  | none => exact .fail _ agrees

theorem latest_yields (h : Agrees tree place provider gone log)
    : (latest tree).Yields log (latestVersion tree place) (Agrees tree place provider gone) := by
  apply Op.Yields.bind_current
  rw [h.choose_spec.1.place_eq]
  exact .ofResult _ h

/-- What is kept of the file of a version counts as long as the version is not gone. -/
theorem actions_yields (there : ¬gone v) (h : Keeps tree place provider gone history log)
    : (actions tree v).Yields log (actionsAt tree place v)
        (Keeps tree place provider gone history) :=
  .seq (payloads_yields_load h there) (fun _ keeps => keeps)
    fun _ _ _ keeps => .ofResult _ keeps

theorem known_of_historyAt (told : historyAt tree place provider = .ok history)
    : Known tree place provider history := by
  cases listed : listVersions tree place with
  | error failure => simp [historyAt, listed, bind, Except.bind] at told
  | ok all =>
      rw [historyAt_of_listVersions provider listed] at told
      cases told
      rw [← committed_of_listVersions listed]
      exact known_historyOf tree place provider

/-- A history that goes on in a log tells the commit and the metadata of its versions as the whole
history does.
-/
theorem historyAt_of_known (known : Known tree place provider history)
    (has : (history.positions.lookup v).isSome)
    : ∃ whole,
        historyAt tree place provider = .ok whole
        ∧ whole.commitAt v = history.commitAt v
        ∧ whole.metadataAt v = history.metadataAt v := by
  obtain ⟨seen, more, split, above, rfl⟩ := known
  have indexed : (historyOf tree place provider seen).Indexed := History.indexed_ofRecorded _
  have member : v ∈ seen := isSome_positions_historyOf.mp has
  have whole : historyOf tree place provider (seen ++ more)
      = (more.map (recorded tree place provider)).foldl History.grown
          (historyOf tree place provider seen) := by
    simp [historyOf, History.ofRecorded_append]
  refine ⟨historyOf tree place provider (seen ++ more), ?_, ?_, ?_⟩
  · cases listed : listVersions tree place with
    | error failure =>
        rw [committed_of_error listed] at split
        simp [(List.append_eq_nil_iff.mp split.symm).1] at member
    | ok all =>
        rw [← split, committed_of_listVersions listed, historyAt_of_listVersions provider listed]
  · rw [whole]
    refine indexed.commitAt_foldl_grown fun again => ?_
    simp only [List.map_map, List.mem_map, Function.comp_apply, recorded] at again
    obtain ⟨u, later, rfl⟩ := again
    exact absurd (above u later u member) (Int.lt_irrefl u)
  · rw [whole]
    refine History.metadataAt_foldl_grown _ fun commit later => ?_
    obtain ⟨u, isMore, rfl⟩ := List.mem_map.mp later
    exact above u isMore v member

/-- (Has tree place provider gone v log) says that the history of a log goes on in the log as it
is now, and has a version.
-/
def Has (tree : Tree) (place : Place) (provider : String) (gone : Int → Prop) (v : Int)
    (log : CommitLog)
    : Prop :=
  ∃ history,
    Keeps tree place provider gone history log
    ∧ Known tree place provider history
    ∧ (history.positions.lookup v).isSome

/-- Without versions that are gone, the commit of a version is the one that the files tell, and
the log has the version after it was found.
-/
theorem commitAt_yields (intact : ∀ v, ¬gone v) (sound : SoundLog tree place provider)
    (h : Agrees tree place provider gone log)
    : (commitAt tree v).Yields log (historyAt tree place provider >>= (·.commitAt v))
        (fun log => Agrees tree place provider gone log
          ∧ ∀ commit,
            historyAt tree place provider >>= (·.commitAt v) = .ok commit
            → Has tree place provider gone v log) := by
  apply Op.Yields.bind_current
  split
  case isTrue unknown =>
    refine refreshed_yields (·.commitAt v) (fun v _ => intact v) sound h ?_ ?_
    · intro failure log untold agrees
      exact ⟨agrees, fun commit found => by simp [untold, bind, Except.bind] at found⟩
    · intro history log told keeps agrees
      rw [keeps.history_eq]
      refine .ofResult _ ⟨agrees, fun commit found => ⟨history, keeps, ?_, ?_⟩⟩
      · exact known_of_historyAt told
      · rw [told] at found
        exact History.isSome_of_commitAt found
  case isFalse known =>
    obtain ⟨history, keeps, goesOn | lost⟩ := h
    · rw [keeps.history_eq] at known
      have has : (history.positions.lookup v).isSome := by simpa using known
      obtain ⟨whole, told, same, _⟩ := historyAt_of_known goesOn has
      apply Op.Yields.bind_current
      rw [told, keeps.history_eq]
      refine same ▸ .ofResult _ ⟨⟨history, keeps, Or.inl goesOn⟩, fun _ _ => ?_⟩
      exact ⟨history, keeps, goesOn, has⟩
    · obtain ⟨first, _, isGone⟩ := lost
      exact absurd isGone (intact _)

/-- Without versions that are gone, the metadata in effect are those that the files tell. -/
theorem metadataAt_yields (intact : ∀ v, ¬gone v) (sound : SoundLog tree place provider)
    (h : Agrees tree place provider gone log)
    : (metadataAt tree v).Yields log
        (do
          let _ ← historyAt tree place provider >>= (·.commitAt v)
          historyAt tree place provider >>= (·.metadataAt v))
        (Agrees tree place provider gone) := by
  apply Op.Yields.seq (commitAt_yields intact sound h) (fun log after => after.1)
  intro commit log found after
  rcases after with ⟨agrees, has⟩
  obtain ⟨history, keeps, known, listed⟩ := has commit found
  obtain ⟨whole, told, _, same⟩ := historyAt_of_known known listed
  apply Op.Yields.bind_current
  rw [told, keeps.history_eq]
  exact same ▸ .ofResult _ agrees

/-- The replay of versions that are not gone is that of their files. -/
theorem replayed_yields (live : LiveFiles) {versions : List Int}
    (there : ∀ v ∈ versions, ¬gone v) (h : Keeps tree place provider gone history log)
    : (replayed tree live versions).Yields log (replayedAt tree place live versions)
        (Keeps tree place provider gone history) := by
  induction versions generalizing live log with
  | nil => exact .pure live h
  | cons v rest ih =>
      apply Op.Yields.seq (actions_yields (there v List.mem_cons_self) h) (fun _ keeps => keeps)
      intro fileActions log _ keeps
      apply Op.Yields.bind_current
      rw [basePath, keeps.place_eq]
      exact ih _ (fun v member => there v (List.mem_cons_of_mem _ member)) keeps

theorem liveFiles_yields (apart : ∀ v ∈ committed tree place, ¬gone v)
    (h : Keeps tree place provider gone history log)
    : (liveFiles tree v).Yields log (liveFilesAt tree place v)
        (Keeps tree place provider gone history) := by
  have listed : (versions tree).Yields log (listVersions tree place)
      (Keeps tree place provider gone history) := by
    apply Op.Yields.bind_current
    rw [h.place_eq]
    exact .ofResult _ h
  apply Op.Yields.seq listed (fun _ keeps => keeps)
  intro all log isAll keeps
  dsimp only
  split
  case isTrue => exact .bind_error (.fail _ keeps)
  case isFalse =>
    refine replayed_yields [] (fun v member => apart v ?_) keeps
    rw [committed_of_listVersions isAll]
    exact (List.mem_filter.mp member).1

/-- (listingAt tree place version table) lists the data files of a table as its files tell. -/
def listingAt (tree : Tree) (place : Place) (version : Int) (table : Table)
    : Except Failure Listing := do
  let live ← liveFilesAt tree place version
  return { context := table.fileContext, pending := live.inOrder }

theorem listing_yields (apart : ∀ v ∈ committed tree place, ¬gone v) (table : Table)
    (h : Keeps tree place provider gone history log)
    : (listing tree v table).Yields log (listingAt tree place v table)
        (Keeps tree place provider gone history) :=
  .seq (liveFiles_yields apart h) (fun _ keeps => keeps) fun _ _ _ keeps => .pure _ keeps

end CommitLog

end DeltaFeed.Log
