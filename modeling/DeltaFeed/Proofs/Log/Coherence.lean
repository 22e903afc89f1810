import DeltaFeed.Proofs.Entries
import DeltaFeed.Proofs.Log.Recording
import DeltaFeed.Proofs.Outcome

/-! What a log that is read from files keeps is what its files say. The kept commit files may be
of versions that are gone; of all others the kept content is the content of the file, so that an
operation yields what it would yield without them.
-/

namespace DeltaFeed.Log

open Store (Tree)

variable {tree : Tree} {place : Place} {provider : String} {gone : Int → Prop}
  {history : History} {log : CommitLog} {v : Int}

/-- (Keeps tree place provider gone history log) says that a log at a place has a history, and
that the content it keeps of each version that is not gone is that of its file.
-/
structure Keeps (tree : Tree) (place : Place) (provider : String) (gone : Int → Prop)
    (history : History) (log : CommitLog) : Prop where
  place_eq : log.place = place
  provider_eq : log.defaultProvider = provider
  history_eq : log.history = history
  cache
    : ∀ {v found}, log.cache.lookup v = some found → gone v ∨ load tree place v = .ok found

-----------------------------------------------------------------------------------------
-- The kept files
-----------------------------------------------------------------------------------------

/-- What is kept after a file was used is its content, or was kept before. -/
theorem lookup_remember {size : Nat} {used : Int} {content found : List Value} {cache : Cache}
    (h : (remember size used content cache).lookup v = some found)
    : cache.lookup v = some found ∨ v = used ∧ found = content := by
  have all := (List.take_prefix _ _).lookup_eq_some h
  rw [List.lookup_cons] at all
  by_cases same : v = used
  · refine Or.inr ⟨same, ?_⟩
    simpa [same, eq_comm] using all
  · rw [beq_eq_false_iff_ne.mpr same, lookup_without, if_neg same] at all
    exact Or.inl all

/-- A file that was used may be kept. -/
theorem Keeps.remember {content : List Value} (h : Keeps tree place provider gone history log)
    (right : gone v ∨ load tree place v = .ok content)
    : Keeps tree place provider gone history
        { log with cache := Log.remember log.cacheSize v content log.cache } where
  place_eq := h.place_eq
  provider_eq := h.provider_eq
  history_eq := h.history_eq
  cache := by
    intro u found kept
    rcases lookup_remember kept with kept | ⟨rfl, rfl⟩
    · exact h.cache kept
    · exact right

/-- A change of the history leaves the files that are kept as they are. -/
theorem Keeps.changeHistory (h : Keeps tree place provider gone history log)
    (f : History → History)
    : (CommitLog.changeHistory f).Yields log (.ok ())
        (Keeps tree place provider gone (f history)) :=
  .change _ ⟨h.place_eq, h.provider_eq, congrArg f h.history_eq, h.cache⟩

namespace CommitLog

/-- Reading a file yields what is kept of it, or else what it holds. -/
theorem payloads_yields (h : Keeps tree place provider gone history log)
    : (payloads tree v).Yields log
        (((log.cache.lookup v).map .ok).getD (load tree place v))
        (Keeps tree place provider gone history) := by
  apply Op.Yields.bind_current
  rw [h.place_eq]
  cases kept : log.cache.lookup v with
  | some found =>
      exact .bind_pure (.bind_change (.pure found (h.remember (h.cache kept))))
  | none =>
      cases loaded : load tree place v with
      | error failure => exact .bind_error (.ofResult _ h)
      | ok found =>
          exact .bind_ofResult (.bind_change (.pure found (h.remember (Or.inr loaded))))

/-- Reading the lines of a file keeps the history, whether or not they were in memory. -/
theorem payloads_preserves
    : (payloads tree v).Preserves (Keeps tree place provider gone history) :=
  .of_yields fun _ h => payloads_yields h

/-- Reading the file of a version that is not gone yields what it holds. -/
theorem payloads_yields_load (h : Keeps tree place provider gone history log) (there : ¬gone v)
    : (payloads tree v).Yields log (load tree place v)
        (Keeps tree place provider gone history) := by
  have kept : ((log.cache.lookup v).map .ok).getD (load tree place v) = load tree place v := by
    cases found : log.cache.lookup v with
    | none => rfl
    | some content => exact ((h.cache found).resolve_left there).symm
  exact kept ▸ payloads_yields h

end CommitLog

-----------------------------------------------------------------------------------------
-- Sound logs and their histories
-----------------------------------------------------------------------------------------

/-- (SoundFile tree place provider v) says that the file of a version is there, and that all of
its lines are sound.
-/
def SoundFile (tree : Tree) (place : Place) (provider : String) (v : Int) : Prop :=
  ∃ lines, load tree place v = .ok lines ∧ ∀ line ∈ lines, SoundLine provider line

/-- (commitTimes tree place provider) are the times of all commits in milliseconds, each after the
one before.
-/
def commitTimes (tree : Tree) (place : Place) (provider : String) : List Int :=
  ascending none ((committed tree place).map fun v => (recorded tree place provider v).raw)

/-- A log is sound if the files of its versions are, and the times of its commits can be
represented.
-/
structure SoundLog (tree : Tree) (place : Place) (provider : String) : Prop where
  files : ∀ v ∈ committed tree place, SoundFile tree place provider v
  times : ∀ millis ∈ commitTimes tree place provider, Time.Representable (1000 * millis)

instance (tree : Tree) (place : Place) (provider : String) (v : Int)
    : Decidable (SoundFile tree place provider v) :=
  match loaded : load tree place v with
  | .ok lines =>
    decidable_of_iff (∀ line ∈ lines, SoundLine provider line)
      ⟨fun sound => ⟨lines, loaded, sound⟩, fun ⟨_, same, sound⟩ =>
        Except.ok.inj (same.symm.trans loaded) ▸ sound⟩
  | .error _ => .isFalse fun ⟨_, same, _⟩ => nomatch loaded.symm.trans same

instance (tree : Tree) (place : Place) (provider : String)
    : Decidable (SoundLog tree place provider) :=
  decidable_of_iff
    ((∀ v ∈ committed tree place, SoundFile tree place provider v)
      ∧ ∀ millis ∈ commitTimes tree place provider, Time.Representable (1000 * millis))
    ⟨fun ⟨files, times⟩ => ⟨files, times⟩, fun sound => ⟨sound.files, sound.times⟩⟩

/-- (historyOf tree place provider versions) is the history of what the files of some versions
record.
-/
def historyOf (tree : Tree) (place : Place) (provider : String) (versions : List Int)
    : History :=
  .ofRecorded (versions.map (recorded tree place provider))

/-- The history of more versions grows by what the next file records. -/
theorem historyOf_append (versions : List Int) (next : Int)
    : historyOf tree place provider (versions ++ [next])
      = (historyOf tree place provider versions).grown (recorded tree place provider next) := by
  simp [historyOf, History.ofRecorded_append]

/-- The history of some versions has a commit for each, in order. -/
theorem historyOf_versions (versions : List Int)
    : (historyOf tree place provider versions).commits.map (·.version) = versions := by
  rw [historyOf, History.ofRecorded_versions, List.map_map]
  exact List.map_id versions

/-- A history finds the commits of its versions. -/
theorem isSome_positions_historyOf {versions : List Int}
    : ((historyOf tree place provider versions).positions.lookup v).isSome ↔ v ∈ versions := by
  have indexed : (historyOf tree place provider versions).Indexed := History.indexed_ofRecorded _
  have same : (historyOf tree place provider versions).commits.map (·.version) = versions :=
    historyOf_versions versions
  constructor
  · intro has
    obtain ⟨position, found⟩ := Option.isSome_iff_exists.mp has
    obtain ⟨commit, there, rfl⟩ := indexed.located found
    exact same ▸ List.mem_map_of_mem (List.mem_of_getElem? there)
  · intro member
    rw [← same] at member
    obtain ⟨commit, isCommit, rfl⟩ := List.mem_map.mp member
    exact indexed.listed commit isCommit

/-- Each version of a history has a commit. -/
theorem commitAt_historyOf {versions : List Int} (member : v ∈ versions)
    : ∃ commit,
        (historyOf tree place provider versions).commitAt v = .ok commit
        ∧ commit ∈ (historyOf tree place provider versions).commits
        ∧ commit.version = v := by
  have same : (historyOf tree place provider versions).commits.map (·.version) = versions :=
    historyOf_versions versions
  rw [← same] at member
  obtain ⟨commit, isCommit, same⟩ := List.mem_map.mp member
  have indexed : (historyOf tree place provider versions).Indexed := History.indexed_ofRecorded _
  obtain ⟨found, there, version, isFound⟩ := indexed.commitAt_of_mem isCommit
  exact ⟨found, same ▸ isFound, there, version.trans same⟩

/-- No other version has one. -/
theorem commitAt_historyOf_of_not_mem {versions : List Int} (absent : v ∉ versions)
    : ∃ detail,
        (historyOf tree place provider versions).commitAt v
          = .error (.read .versionNotFound detail (some v)) := by
  have unknown : (historyOf tree place provider versions).positions.lookup v = none := by
    rw [← Option.not_isSome_iff_eq_none, isSome_positions_historyOf]
    exact absent
  rw [History.commitAt, unknown]
  exact ⟨_, rfl⟩

/-- The metadata in effect as of a version are those that versions up to it recorded last. -/
theorem metadataAt_historyOf {versions : List Int} (sorted : versions.Pairwise (· ≤ ·)) (v : Int)
    : (historyOf tree place provider versions).metadataAt v
      = ((((versions.filter (· ≤ v)).flatMap
            fun u => (recorded tree place provider u).metadata).getLast?).map .ok).getD
          (.error (.read .logRead "No metaData action found in the log" (some v))) := by
  have split := filter_append_filter sorted v
  rw [historyOf, ← split, List.map_append, History.metadataAt_ofRecorded, List.flatMap_map, split]
  · intro commit member
    obtain ⟨u, isPast, rfl⟩ := List.mem_map.mp member
    simpa [recorded] using (List.mem_filter.mp isPast).2
  · intro commit member
    obtain ⟨u, isLater, rfl⟩ := List.mem_map.mp member
    simpa [recorded] using (List.mem_filter.mp isLater).2

-----------------------------------------------------------------------------------------
-- Taking in a version
-----------------------------------------------------------------------------------------

namespace CommitLog

/-- The time of a commit is the one that its file tells. -/
theorem rawMillis_yields (there : ¬gone v) (h : Keeps tree place provider gone history log)
    : (rawMillis tree v).Yields log (timeAt tree place v)
        (Keeps tree place provider gone history) := by
  apply Op.Yields.seq (payloads_yields_load h there) (fun _ keeps => keeps)
  intro lines log _ keeps
  apply Op.Yields.seq (.ofResult _ keeps) (fun _ keeps => keeps)
  intro stated log _ keeps
  cases stated with
  | some millis => exact .pure millis keeps
  | none =>
      apply Op.Yields.bind_current
      rw [keeps.place_eq]
      exact .ofResult _ keeps

/-- The metadata of a version are taken in line by line, up to the first that fails. -/
theorem recordMetadata_yields (lines : List Value)
    (h : Keeps tree place provider gone history log)
    : (recordMetadata v lines).Yields log ((fun _ => ()) <$> metadataIn provider lines)
        (fun log => ∃ next,
          Keeps tree place provider gone next log
          ∧ next.positions = history.positions
          ∧ ∀ metadata,
              metadataIn provider lines = .ok metadata
              → next = metadata.foldl (·.noted v ·) history) := by
  induction lines generalizing log history with
  | nil =>
      refine .pure () ⟨history, h, rfl, fun metadata none => ?_⟩
      cases none
      rfl
  | cons line rest ih =>
      rw [recordMetadata]
      cases present : Payload.present line "metaData" with
      | error failure =>
          have failed : metadataIn provider (line :: rest) = .error failure := by
            simp [metadataIn, present, bind, Except.bind]
          rw [failed]
          refine .bind_error (.ofResult _ ⟨history, h, rfl, fun _ told => ?_⟩)
          cases told
      | ok found =>
          apply Op.Yields.bind_ofResult
          cases found with
          | none =>
              rw [metadataIn_cons_none present]
              exact .bind_pure (ih h)
          | some value =>
              apply Op.Yields.bind (h.changeHistory _)
              intro log announced
              apply Op.Yields.bind_current
              rw [announced.provider_eq]
              cases read : Payload.metadataOf provider value with
              | error failure =>
                  have failed : metadataIn provider (line :: rest) = .error failure := by
                    simp [metadataIn, present, read, bind, Except.bind]
                  rw [failed]
                  refine .bind_error (.ofResult _ ⟨_, announced, rfl, fun _ told => ?_⟩)
                  cases told
              | ok first =>
                  apply Op.Yields.bind_ofResult
                  apply Op.Yields.bind (announced.changeHistory _)
                  intro log recorded
                  rw [metadataIn_cons_some present read, Functor.map_map]
                  refine (ih recorded).mono fun log => ?_
                  rintro ⟨next, keeps, same, whole⟩
                  refine ⟨next, keeps, same, fun all told => ?_⟩
                  obtain ⟨metadata, others, rfl⟩ := map_eq_ok.mp told
                  exact whole metadata others

/-- Nothing is taken in of a file whose time cannot be read. -/
theorem extend_yields_untimed {failure : Failure} (there : ¬gone v)
    (untimed : timeAt tree place v = .error failure)
    (h : Keeps tree place provider gone history log)
    : (extend tree v).Yields log (.error failure) (Keeps tree place provider gone history) :=
  .bind_error (untimed ▸ rawMillis_yields there h)

/-- (enter tree version millis) takes in a version whose time is known. -/
def enter (tree : Tree) (version : Int) (millis : Int) : Op CommitLog Unit := do
  changeHistory (·.schedule version millis)
  let timestamp ← .ofResult (Time.Timestamp.ofMillis millis)
  changeHistory (·.commit { version, timestamp })
  recordMetadata version (← payloads tree version)

/-- A version is entered once its time was read and adjusted. -/
theorem extend_yields_enter {raw : Int} {result : Except Failure Unit} {Q : CommitLog → Prop}
    (there : ¬gone v) (timed : timeAt tree place v = .ok raw)
    (h : Keeps tree place provider gone history log)
    (entered
      : ∀ log, Keeps tree place provider gone history log
        → (enter tree v (after history.millis.getLast? raw)).Yields log result Q)
    : (extend tree v).Yields log result Q := by
  refine .bind (timed ▸ rawMillis_yields there h) fun log keeps => ?_
  apply Op.Yields.bind_current
  rw [keeps.history_eq, History.adjusted_eq_after]
  dsimp only
  split
  · exact .bind_tell (entered log keeps)
  · exact entered log keeps

/-- A file whose time can be read is located in the history, whether or not all of it can be taken
in.
-/
theorem enter_yields {raw : Int} (there : ¬gone v)
    (timed : timeAt tree place v = .ok raw) (h : Keeps tree place provider gone history log)
    : (enter tree v (after history.millis.getLast? raw)).Yields log
        ((fun _ => ()) <$> gain tree place provider history.millis.getLast? v)
        (fun log => ∃ next,
          Keeps tree place provider gone next log
          ∧ (next.positions.lookup v).isSome
          ∧ ∀ commit,
              gain tree place provider history.millis.getLast? v = .ok commit
              → next = history.grown commit) := by
  obtain ⟨lines, loaded, _⟩ := bind_eq_ok.mp timed
  have located (position : Nat) : ((put v position history.positions).lookup v).isSome := by
    simp [lookup_put]
  apply Op.Yields.bind (h.changeHistory _)
  intro log scheduled
  cases dated : Time.Timestamp.ofMillis (after history.millis.getLast? raw) with
  | error failure =>
      have failed
          : gain tree place provider history.millis.getLast? v = Except.error failure := by
        simp only [gain, timed, dated, bind, Except.bind]
      rw [failed]
      refine .bind_error (.ofResult _ ⟨_, scheduled, located _, fun _ told => ?_⟩)
      cases told
  | ok timestamp =>
      have instant : timestamp = .utc (1000 * after history.millis.getLast? raw) := by
        unfold Time.Timestamp.ofMillis Time.Timestamp.ofInstant at dated
        split at dated
        · exact (Except.ok.inj dated).symm
        · cases dated
      subst instant
      have rest
          : gain tree place provider history.millis.getLast? v
            = (fun metadata => { version := v, raw, metadata })
              <$> metadataIn provider lines := by
        simp only [gain, timed, dated, loaded, bind, Except.bind]
        rfl
      apply Op.Yields.bind_ofResult
      apply Op.Yields.bind (scheduled.changeHistory _)
      intro log committed
      apply Op.Yields.bind (loaded ▸ payloads_yields_load committed there)
      intro log again
      rw [rest, Functor.map_map]
      refine (recordMetadata_yields lines again).mono fun log => ?_
      rintro ⟨next, keeps, same, whole⟩
      refine ⟨next, keeps, same ▸ located _, fun commit gained => ?_⟩
      obtain ⟨metadata, read, rfl⟩ := map_eq_ok.mp gained
      rw [whole metadata read, History.grown, History.adjusted_eq_after]

/-- The history grows by what the file of a version adds to it. -/
theorem extend_yields_gain {commit : Recorded} (there : ¬gone v)
    (gained : gain tree place provider history.millis.getLast? v = .ok commit)
    (h : Keeps tree place provider gone history log)
    : (extend tree v).Yields log (.ok ())
        (Keeps tree place provider gone (history.grown commit)) := by
  obtain ⟨raw, timed⟩ := timeAt_of_gain gained
  apply extend_yields_enter there timed h
  intro log keeps
  have entered := enter_yields there timed keeps
  rw [gained] at entered
  refine entered.mono fun log => ?_
  rintro ⟨next, keeps, _, whole⟩
  exact whole commit rfl ▸ keeps

end CommitLog

/-- The time of a sound file is the one that it records. -/
theorem SoundFile.timeAt (sound : SoundFile tree place provider v)
    : timeAt tree place v = .ok (recorded tree place provider v).raw := by
  obtain ⟨lines, loaded, fine⟩ := sound
  obtain ⟨modified, timed⟩ := exists_modifiedMillis_of_load loaded
  have read : Log.timeAt tree place v = .ok ((lines.findSome? statedTime?).getD modified) := by
    simp only [Log.timeAt, loaded, statedMillis_of_sound fine, timed, bind, Except.bind]
    cases lines.findSome? statedTime? <;> rfl
  rw [read, raw_of_timeAt read]

/-- All of a sound file can be taken in. -/
theorem SoundFile.gain {last : Option Int} (sound : SoundFile tree place provider v)
    (time
      : Time.Representable (1000 * after last (recorded tree place provider v).raw))
    : gain tree place provider last v = .ok (recorded tree place provider v) := by
  have timed := sound.timeAt
  obtain ⟨lines, loaded, fine⟩ := sound
  have gained
      : Log.gain tree place provider last v
        = .ok {
            version := v
            raw := (recorded tree place provider v).raw
            metadata := lines.filterMap (recordedMetadata? provider) } := by
    simp only [Log.gain, timed, loaded, metadataIn_of_sound fine, Time.Timestamp.ofMillis,
      Time.Timestamp.ofInstant, if_pos time, bind, Except.bind]
    rfl
  rw [gained, recorded_of_gain gained]

/-- Taking in a sound file makes the history grow by what the file records. -/
theorem CommitLog.extend_yields (sound : SoundFile tree place provider v) (there : ¬gone v)
    (time
      : Time.Representable
          (1000 * after history.millis.getLast? (recorded tree place provider v).raw))
    (h : Keeps tree place provider gone history log)
    : (extend tree v).Yields log (.ok ())
        (Keeps tree place provider gone (history.grown (recorded tree place provider v))) :=
  extend_yields_gain there (sound.gain time) h

-----------------------------------------------------------------------------------------
-- Extending the history
-----------------------------------------------------------------------------------------

/-- (Known tree place provider history) says that a history is that of the first versions of a
log, all below the others.
-/
def Known (tree : Tree) (place : Place) (provider : String) (history : History) : Prop :=
  ∃ seen more,
    committed tree place = seen ++ more
    ∧ (∀ v ∈ more, ∀ u ∈ seen, u < v)
    ∧ history = historyOf tree place provider seen

/-- (Lost gone history) says that a history begins with a version that is gone. -/
def Lost (gone : Int → Prop) (history : History) : Prop :=
  ∃ first, history.commits.head? = some first ∧ gone first.version

/-- (Agrees tree place provider gone log) says that a log keeps what the files of its versions
say, apart from those that are gone: its history goes on in the log as it is now, or else begins
with a version that is gone.
-/
def Agrees (tree : Tree) (place : Place) (provider : String) (gone : Int → Prop)
    (log : CommitLog)
    : Prop :=
  ∃ history,
    Keeps tree place provider gone history log
    ∧ (Known tree place provider history ∨ Lost gone history)

/-- A log without a history knows none of its versions. -/
theorem known_empty (tree : Tree) (place : Place) (provider : String)
    : Known tree place provider {} :=
  ⟨[], committed tree place, rfl, by simp, rfl⟩

/-- The history of a whole log goes on in it. -/
theorem known_historyOf (tree : Tree) (place : Place) (provider : String)
    : Known tree place provider (historyOf tree place provider (committed tree place)) :=
  ⟨committed tree place, [], by simp, by simp, rfl⟩

/-- A history that is known fits the versions of the log, since they begin with its own. -/
theorem fits_of_known (h : Known tree place provider history)
    : history.fits (committed tree place) = true := by
  obtain ⟨seen, more, split, _, rfl⟩ := h
  have versions : (historyOf tree place provider seen).commits.map (·.version) = seen :=
    historyOf_versions seen
  unfold History.fits
  split
  case h_2 => rfl
  case h_1 first last begins ends =>
      have head : seen.head? = some first.version := by
        rw [← versions, List.head?_map, begins, Option.map_some]
      have tail : last.version ∈ seen := by
        rw [← versions]
        exact List.mem_map_of_mem (List.mem_of_getLast? ends)
      simp [split, head, tail]

/-- A history of versions that are lost does not fit those of the log. -/
theorem not_fits_of_lost (apart : ∀ v ∈ committed tree place, ¬gone v) (h : Lost gone history)
    : history.fits (committed tree place) = false := by
  obtain ⟨first, begins, isGone⟩ := h
  have ends : ∃ last, history.commits.getLast? = some last := by
    cases commits : history.commits with
    | nil => simp [commits] at begins
    | cons commit rest => exact ⟨_, List.getLast?_eq_some_getLast (List.cons_ne_nil _ _)⟩
  obtain ⟨last, ends⟩ := ends
  have notFirst : (committed tree place).head? ≠ some first.version := fun same =>
    apart _ (List.mem_of_mem_head? same) isGone
  simp [History.fits, begins, ends, notFirst]

/-- The versions above the last one of a history are those that it does not have yet. -/
theorem dropWhile_known {seen more : List Int} (split : committed tree place = seen ++ more)
    (above : ∀ v ∈ more, ∀ u ∈ seen, u < v)
    : (committed tree place).dropWhile
        (· ≤ (historyOf tree place provider seen).known)
      = more := by
  have sorted := committed_sorted tree place
  have upTo : ∀ u ∈ seen, u ≤ (historyOf tree place provider seen).known := by
    intro u member
    rw [History.known_eq, historyOf_versions]
    rw [split] at sorted
    have inOrder := (List.pairwise_append.mp sorted).1
    obtain ⟨last, ends⟩ := Option.ne_none_iff_exists'.mp
      (mt List.getLast?_eq_none_iff.mp (List.ne_nil_of_mem member))
    obtain ⟨start, rfl⟩ := List.getLast?_eq_some_iff.mp ends
    rw [ends, Option.getD_some]
    rcases List.mem_append.mp member with earlier | same
    · exact (List.pairwise_append.mp inOrder).2.2 u earlier last (List.mem_singleton_self last)
    · exact Int.le_of_eq (List.mem_singleton.mp same)
  have beyond : ∀ v ∈ more, (historyOf tree place provider seen).known < v := by
    intro v member
    rw [History.known_eq, historyOf_versions]
    cases ends : seen.getLast? with
    | none =>
        have nonneg := committed_nonneg (split ▸ List.mem_append_right seen member)
        simp only [Option.getD_none]
        omega
    | some last => exact above v member last (List.mem_of_getLast? ends)
  rw [split, List.dropWhile_append_of_pos (by simpa using upTo)]
  cases more with
  | nil => rfl
  | cons v rest =>
      rw [List.dropWhile_cons_of_neg]
      have := beyond v List.mem_cons_self
      simp only [decide_eq_true_eq]
      omega

/-- The adjusted times of a log are those of its history. -/
theorem commitTimes_eq (tree : Tree) (place : Place) (provider : String)
    : commitTimes tree place provider
      = (historyOf tree place provider (committed tree place)).millis := by
  rw [historyOf, History.ofRecorded_millis, List.map_map]
  rfl

/-- The time that a version gets after those before it is one of the times of the log. -/
theorem next_mem_commitTimes {done rest : List Int}
    (split : committed tree place = done ++ v :: rest)
    : after (historyOf tree place provider done).millis.getLast?
        (recorded tree place provider v).raw
      ∈ commitTimes tree place provider := by
  rw [commitTimes_eq, split, historyOf, List.map_append, History.ofRecorded_append,
    History.foldl_grown_millis]
  exact List.mem_append_right _ List.mem_cons_self

namespace CommitLog

/-- A history that cannot go on begins anew. -/
theorem resetUnlessFits_yields (apart : ∀ v ∈ committed tree place, ¬gone v)
    (h : Agrees tree place provider gone log)
    : (resetUnlessFits (committed tree place)).Yields log (.ok ())
        (fun log => ∃ history,
          Keeps tree place provider gone history log ∧ Known tree place provider history) := by
  obtain ⟨history, keeps, known | lost⟩ := h
  · apply Op.Yields.bind_current
    rw [keeps.history_eq, fits_of_known known]
    exact .pure () ⟨history, keeps, known⟩
  · apply Op.Yields.bind_current
    rw [keeps.history_eq, not_fits_of_lost apart lost]
    apply Op.Yields.bind_tell
    exact (keeps.changeHistory _).mono fun log kept => ⟨{}, kept, known_empty tree place provider⟩

/-- Refreshing a log that cannot be listed fails and changes nothing. -/
theorem refresh_yields_error {failure : Failure}
    (listed : listVersions tree place = .error failure) (h : Agrees tree place provider gone log)
    : (refresh tree).Yields log (.error failure) (Agrees tree place provider gone) := by
  apply Op.Yields.bind_current
  rw [h.choose_spec.1.place_eq, listed]
  exact .bind_error (.ofResult _ h)

/-- Refreshing a sound log makes its history that of all of its versions. -/
theorem refresh_yields {all : List Int} (apart : ∀ v ∈ committed tree place, ¬gone v)
    (sound : SoundLog tree place provider) (listed : listVersions tree place = .ok all)
    (h : Agrees tree place provider gone log)
    : (refresh tree).Yields log (.ok ())
        (Keeps tree place provider gone (historyOf tree place provider all)) := by
  have isAll := committed_of_listVersions listed
  apply Op.Yields.bind_current
  rw [h.choose_spec.1.place_eq, listed]
  apply Op.Yields.bind_ofResult
  rw [← isAll]
  apply Op.Yields.bind (resetUnlessFits_yields apart h)
  intro next begun
  obtain ⟨_, keeps, seen, more, split, above, rfl⟩ := begun
  apply Op.Yields.bind_current
  rw [keeps.history_eq]
  dsimp only
  rw [dropWhile_known split above]
  -- the versions taken in so far and those still to come are all versions
  let I (rest : List Int) (log : CommitLog) : Prop := ∃ done,
    committed tree place = done ++ rest
    ∧ Keeps tree place provider gone (historyOf tree place provider done) log
  have step (v : Int) (rest : List Int) (log : CommitLog) (h : I (v :: rest) log)
      : (extend tree v).Yields log (.ok ()) (I rest) := by
    obtain ⟨done, split, keeps⟩ := h
    have member : v ∈ committed tree place := split ▸ List.mem_append_right _ List.mem_cons_self
    have time := sound.times _ (next_mem_commitTimes split)
    refine (extend_yields (sound.files v member) (apart v member) time keeps).mono ?_
    intro log after
    refine ⟨done ++ [v], by simpa using split, ?_⟩
    rwa [historyOf_append]
  refine (Op.Yields.forEach I step ⟨seen, split, keeps⟩).mono ?_
  intro log after
  rcases after with ⟨done, split, keeps⟩
  rwa [split, List.append_nil]

end CommitLog

-----------------------------------------------------------------------------------------
-- However an operation ends
-----------------------------------------------------------------------------------------

/-- (KeepsFiles tree place provider gone log) says that the content that a log keeps of each
version that is not gone is that of its file, whatever its history says.
-/
def KeepsFiles (tree : Tree) (place : Place) (provider : String) (gone : Int → Prop)
    (log : CommitLog)
    : Prop :=
  Keeps tree place provider gone log.history log

/-- A log that keeps a history keeps its files. -/
theorem Keeps.keepsFiles (h : Keeps tree place provider gone history log)
    : KeepsFiles tree place provider gone log := by
  obtain ⟨place_eq, provider_eq, rfl, cache⟩ := h
  exact ⟨place_eq, provider_eq, rfl, cache⟩

namespace CommitLog

/-- Reading the lines of a file keeps the files. -/
theorem payloads_keepsFiles
    : (payloads tree v).Preserves (KeepsFiles tree place provider gone) :=
  fun log h => (payloads_preserves log h).keepsFiles

/-- A change of the history keeps the files. -/
theorem changeHistory_keepsFiles (f : History → History)
    : (changeHistory f).Preserves (KeepsFiles tree place provider gone) :=
  fun _ h => (h.changeHistory f).leaves

/-- Recording metadata keeps the files, by induction on the lines. -/
theorem recordMetadata_keepsFiles (lines : List Value)
    : (recordMetadata v lines).Preserves (KeepsFiles tree place provider gone) := by
  induction lines with
  | nil => exact .pure ()
  | cons line rest ih =>
      rw [recordMetadata]
      refine .bind (.ofResult _) fun found => ?_
      cases found with
      | none => exact .bind (.pure ()) fun _ => ih
      | some value =>
          refine .bind (changeHistory_keepsFiles _) fun _ => .bind .current fun _ => ?_
          exact .bind (.ofResult _) fun _ => .bind (changeHistory_keepsFiles _) fun _ => ih

/-- Reading a time keeps the files. -/
theorem rawMillis_keepsFiles
    : (rawMillis tree v).Preserves (KeepsFiles tree place provider gone) := by
  refine .bind payloads_keepsFiles fun lines => .bind (.ofResult _) fun stated => ?_
  cases stated with
  | some millis => exact .pure millis
  | none => exact .bind .current fun _ => .ofResult _

/-- Entering a version in the history keeps the files. -/
theorem enter_keepsFiles (millis : Int)
    : (enter tree v millis).Preserves (KeepsFiles tree place provider gone) := by
  refine .bind (changeHistory_keepsFiles _) fun _ => .bind (.ofResult _) fun _ => ?_
  refine .bind (changeHistory_keepsFiles _) fun _ => ?_
  exact .bind payloads_keepsFiles fun lines => recordMetadata_keepsFiles lines

/-- Extending the history by a version keeps the files. -/
theorem extend_keepsFiles
    : (extend tree v).Preserves (KeepsFiles tree place provider gone) := by
  refine .bind rawMillis_keepsFiles fun raw => .bind .current fun log => ?_
  dsimp only
  split
  · exact .bind (.tell _ _ _) fun _ => enter_keepsFiles _
  · exact enter_keepsFiles _

/-- A refresh keeps the files, also if it is interrupted. -/
theorem refresh_keepsFiles
    : (refresh tree).Preserves (KeepsFiles tree place provider gone) := by
  refine .bind .current fun log => .bind (.ofResult _) fun versions => ?_
  have fits : (resetUnlessFits versions).Preserves (KeepsFiles tree place provider gone) := by
    refine .bind .current fun log => ?_
    split
    · exact .bind (.tell _ _ _) fun _ => changeHistory_keepsFiles _
    · exact .pure ()
  refine .bind fits fun _ => .bind .current fun log => ?_
  exact .forEach (fun _ => extend_keepsFiles) _

/-- Asking for a commit keeps the files. -/
theorem commitAt_keepsFiles
    : (commitAt tree v).Preserves (KeepsFiles tree place provider gone) := by
  refine .bind .current fun log => ?_
  split
  · exact .bind refresh_keepsFiles fun _ => .bind .current fun _ => .ofResult _
  · exact .bind .current fun _ => .ofResult _

/-- Asking for metadata keeps the files. -/
theorem metadataAt_keepsFiles
    : (metadataAt tree v).Preserves (KeepsFiles tree place provider gone) :=
  .bind commitAt_keepsFiles fun _ => .bind .current fun _ => .ofResult _

end CommitLog

end DeltaFeed.Log
