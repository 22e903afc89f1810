import DeltaFeed.Proofs.Log.CachedReading

/-! What the files of a log tell of a version depends on the past alone: it stays as it is while
later versions are added.
-/

namespace DeltaFeed.Log

open Store (Tree Path)

variable {before after : Tree} {place : Place} {provider : String} {added : List Int} {v : Int}

-----------------------------------------------------------------------------------------
-- Growth
-----------------------------------------------------------------------------------------

/-- A directory grows by no version when nothing happens. -/
theorem Grows.refl (place : Place) (tree : Tree)
    : Grows place tree tree [] :=
  ⟨(List.append_nil _).symm, nofun, nofun, fun _ _ => rfl⟩

/-- What grows twice grows by the versions of both times. -/
theorem Grows.trans {later : Tree} {more : List Int} (h : Grows place before after added)
    (next : Grows place after later more)
    : Grows place before later (added ++ more) := by
  constructor
  case listing => rw [next.listing, h.listing, List.append_assoc]
  case above =>
    intro v isNew u member
    rcases List.mem_append.mp isNew with isAdded | isMore
    · exact h.above v isAdded u member
    · exact next.above v isMore u (h.listing ▸ List.mem_append_left _ member)
  case absent =>
    intro v isNew node there
    by_cases isAdded : v ∈ added
    · exact h.absent v isAdded node there
    · have isMore := (List.mem_append.mp isNew).resolve_left isAdded
      exact next.absent v isMore node (h.untouched v isAdded ▸ there)
  case untouched =>
    intro v isOld
    rw [List.mem_append, not_or] at isOld
    rw [next.untouched v isOld.2, h.untouched v isOld.1]

/-- (Extends place provider before after) says that a sound log extends another with later
versions.
-/
def Extends (place : Place) (provider : String) (before after : Tree) : Prop :=
  SoundLog after place provider ∧ ∃ added, Grows place before after added

/-- A sound log extends itself. -/
theorem Extends.refl (sound : SoundLog before place provider)
    : Extends place provider before before :=
  ⟨sound, [], .refl place before⟩

/-- A log that is extended twice extends the first one. -/
theorem Extends.trans {later : Tree} (h : Extends place provider before after)
    (next : Extends place provider after later)
    : Extends place provider before later :=
  have ⟨_, _, grows⟩ := h
  have ⟨sound, _, more⟩ := next
  ⟨sound, _, grows.trans more⟩

/-- The versions of a log stay when it grows. -/
theorem Grows.mem (h : Grows place before after added) (member : v ∈ committed before place)
    : v ∈ committed after place :=
  h.listing ▸ List.mem_append_left _ member

/-- The versions up to one that was there are those that were there. -/
theorem Grows.past (h : Grows place before after added) (member : v ∈ committed before place)
    : (committed after place).filter (· ≤ v) = (committed before place).filter (· ≤ v) := by
  have beyond : added.filter (· ≤ v) = [] := by
    apply List.filter_eq_nil_iff.mpr
    intro u isAdded
    have := h.above u isAdded v member
    simp only [decide_eq_true_eq]
    omega
  rw [h.listing, List.filter_append, beyond, List.append_nil]

-----------------------------------------------------------------------------------------
-- Logs that only grow
-----------------------------------------------------------------------------------------

/-- A log that is sound was sound before it grew. -/
theorem Grows.soundLog_before (h : Grows place before after added)
    (sound : SoundLog after place provider)
    : SoundLog before place provider where
  files v member := by
    obtain ⟨lines, loaded, fine⟩ := sound.files v (h.mem member)
    rw [load_congr (h.untouched v (h.not_mem member))] at loaded
    exact ⟨lines, loaded, fine⟩
  times millis member := by
    have same : historyOf after place provider (committed before place)
        = historyOf before place provider (committed before place) :=
      historyOf_congr fun v isOld => h.untouched v (h.not_mem isOld)
    refine sound.times millis ?_
    rw [commitTimes_eq, ← same] at member
    rw [commitTimes_eq, h.listing, historyOf, List.map_append, History.ofRecorded_append,
      History.foldl_grown_millis]
    exact List.mem_append_left _ member

/-- (Growing settings base tree log) says that a log that was opened at a base is in some state,
after its directory grew and the log was called, in any order, and that its directory looks as in a
tree now. No file was deleted meanwhile.
-/
inductive Growing (settings : Settings) (base : Path) : Tree → CommitLog → Prop where
  | opened (tree : Tree) : Growing settings base tree (.ofBase settings base)
  | grown {before after : Tree} {log : CommitLog} (added : List Int)
    : Growing settings base before log
      → Grows (.ofBase settings base) before after added
      → Growing settings base after log
  | called {tree : Tree} {log : CommitLog} {α : Type} (call : Call α)
    : Growing settings base tree log
      → Growing settings base tree ((call.run tree).run log).state

/-- A log that only grew was sound throughout if it is sound now. -/
theorem Growing.reaches {settings : Settings} {base : Path} {tree : Tree} {log : CommitLog}
    (h : Growing settings base tree log)
    (sound : SoundLog tree (.ofBase settings base) settings.defaultProvider)
    : Reaches settings base tree log true := by
  induction h with
  | opened tree => exact .opened tree sound
  | grown added _ grows ih => exact .grown added (ih (grows.soundLog_before sound)) grows sound
  | called call _ ih => exact .called call (ih sound)

-----------------------------------------------------------------------------------------
-- What is told of a version
-----------------------------------------------------------------------------------------

/-- The actions of a version depend on its file alone. -/
theorem actionsAt_congr (same : after.find (place.file v) = before.find (place.file v))
    : actionsAt after place v = actionsAt before place v := by
  unfold actionsAt
  rw [load_congr same]

/-- The actions of a version stay the same when the log grows. -/
theorem Grows.actionsAt_eq (h : Grows place before after added)
    (member : v ∈ committed before place)
    : actionsAt after place v = actionsAt before place v :=
  actionsAt_congr (h.untouched v (h.not_mem member))

/-- Actions that could be read are not touched, whether or not their version was listed. -/
theorem Grows.actionsAt_eq_ok {actions : List Action} (h : Grows place before after added)
    (told : actionsAt before place v = .ok actions)
    : actionsAt after place v = .ok actions := by
  obtain ⟨lines, loaded, _⟩ := bind_eq_ok.mp told
  obtain ⟨node, there⟩ := exists_find_of_load loaded
  have old : v ∉ added := fun isAdded => h.absent v isAdded node there
  rw [actionsAt_congr (h.untouched v old), told]

/-- The replay of versions that are there stays the same when the log grows, by induction on them.
-/
theorem Grows.replayedAt_eq (h : Grows place before after added) (live : LiveFiles)
    {versions : List Int} (there : ∀ v ∈ versions, v ∈ committed before place)
    : replayedAt after place live versions = replayedAt before place live versions := by
  induction versions generalizing live with
  | nil => rfl
  | cons v rest ih =>
      simp only [replayedAt]
      rw [h.actionsAt_eq (there v List.mem_cons_self)]
      congr 1
      funext actions
      exact ih _ fun u member => there u (List.mem_cons_of_mem _ member)

/-- The files that are live at a version stay the same when the log grows. -/
theorem Grows.liveFilesAt_eq (h : Grows place before after added)
    (member : v ∈ committed before place)
    : liveFilesAt after place v = liveFilesAt before place v := by
  have there : ∀ u ∈ (committed before place).filter (· ≤ v), u ∈ committed before place :=
    fun u isPast => (List.mem_filter.mp isPast).1
  have replayed := h.replayedAt_eq [] there
  have listed := listVersions_of_mem_committed (h.mem member)
  simp only [liveFilesAt, listVersions_of_mem_committed member, listed, bind, Except.bind]
  rw [h.past member, replayed]

/-- The history of a log tells the commit and the metadata of a version as it did before the log
grew.
-/
theorem Grows.historyAt_eq (provider : String) (h : Grows place before after added)
    (member : v ∈ committed before place)
    : ∃ earlier later,
        historyAt before place provider = .ok earlier
        ∧ historyAt after place provider = .ok later
        ∧ later.commitAt v = earlier.commitAt v
        ∧ later.metadataAt v = earlier.metadataAt v := by
  have known := known_historyOf before place provider
  obtain ⟨later, told, commit, metadata⟩ :=
    CommitLog.historyAt_of_known (known.grows h) (isSome_positions_historyOf.mpr member)
  exact ⟨_, later, historyAt_of_listVersions provider (listVersions_of_mem_committed member), told,
    commit, metadata⟩

/-- (call.asOf?) is the version that a call asks about. -/
def Call.asOf? {α : Type} : Call α → Option Int
  | commitAt v | metadataAt v | actions v | listing v _ => some v
  | _ => none

/-- What the files tell of a version stays the same while the log grows. -/
theorem Grows.told {α : Type} {call : Call α} (h : Grows place before after added)
    (asks : call.asOf? = some v) (member : v ∈ committed before place)
    : call.told after place provider = call.told before place provider := by
  obtain ⟨earlier, later, toldBefore, toldAfter, commit, metadata⟩ :=
    h.historyAt_eq provider member
  cases call with
  | commitAt u =>
      cases asks
      simp only [Call.told, toldBefore, toldAfter, bind, Except.bind, commit]
  | metadataAt u =>
      cases asks
      simp only [Call.told, toldBefore, toldAfter, bind, Except.bind, commit, metadata]
  | actions u =>
      cases asks
      exact h.actionsAt_eq member
  | listing u table =>
      cases asks
      simp only [Call.told, CommitLog.listingAt]
      rw [h.liveFilesAt_eq member]
  | _ => cases asks

/-- A log that agrees with its files answers for a version what the files told before the log grew.
-/
theorem Agrees.yields_past {α : Type} {log : CommitLog} (call : Call α)
    (grew : Extends place provider before after) (asks : call.asOf? = some v)
    (member : v ∈ committed before place) (h : Agrees after place provider (fun _ => False) log)
    : (call.run after).Yields log (call.told before place provider)
        (Agrees after place provider fun _ => False) := by
  obtain ⟨sound, added, grows⟩ := grew
  have stays : call.forgets = false := by
    cases call with
    | close => cases asks
    | _ => rfl
  constructor
  · rw [h.answers call (fun _ _ => id) sound (fun _ _ => id), grows.told asks member]
  · exact h.run (fun _ _ => id) sound stays

/-- A log that agrees with its files still does when they are extended. -/
theorem Extends.agrees {log : CommitLog} {gone : Int → Prop}
    (h : Extends place provider before after) (agrees : Agrees before place provider gone log)
    : Agrees after place provider gone log :=
  have ⟨_, _, grows⟩ := h
  agrees.grows grows

end DeltaFeed.Log
