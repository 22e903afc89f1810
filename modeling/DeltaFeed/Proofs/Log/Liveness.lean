import DeltaFeed.Proofs.Log.Answers

/-! What the replay of a log amounts to. A file is live at a version if some version up to there
adds it and no later one removes it, wherever the additions and removals stand in their
versions; what is kept of it is its last addition.
-/

namespace DeltaFeed.Log

open Store (Tree)

-----------------------------------------------------------------------------------------
-- Actions on a file
-----------------------------------------------------------------------------------------

/-- (Adds base key actions) says that some action adds the file with a key. -/
def Adds (base : String) (key : FileKey) (actions : List Action) : Prop :=
  ∃ action ∈ actions, action.added?.isSome ∧ FileKey.of base action = key

/-- (Removes base key actions) says that some action removes the file with a key. -/
def Removes (base : String) (key : FileKey) (actions : List Action) : Prop :=
  ∃ action ∈ actions, action.removed?.isSome ∧ FileKey.of base action = key

instance (base : String) (key : FileKey) (actions : List Action)
    : Decidable (Adds base key actions) :=
  inferInstanceAs (Decidable (∃ action ∈ actions, _))

instance (base : String) (key : FileKey) (actions : List Action)
    : Decidable (Removes base key actions) :=
  inferInstanceAs (Decidable (∃ action ∈ actions, _))

/-- (lastAdd? base key actions) is the last addition of the file with a key. -/
def lastAdd? (base : String) (key : FileKey) (actions : List Action) : Option AddFile :=
  ((actions.filterMap Action.added?).filter
    fun file => FileKey.of base (.add file) = key).getLast?

/-- (LiveAt base acts v key) says that the file with a key is live at a version of a log with some
actions in each version: one up to there adds it, and none after that removes it.
-/
def LiveAt (base : String) (acts : Nat → List Action) (v : Nat) (key : FileKey) : Prop :=
  ∃ u ≤ v, Adds base key (acts u) ∧ ∀ w, u < w → w ≤ v → ¬Removes base key (acts w)

/-- (actionsUpTo acts v) are the actions of all versions up to one, in order. -/
def actionsUpTo (acts : Nat → List Action) (v : Nat) : List Action :=
  (List.range (v + 1)).flatMap acts

/-- (replayedTo base acts v) are the live files after the replay of all versions up to one. -/
def replayedTo (base : String) (acts : Nat → List Action) (v : Nat) : LiveFiles :=
  (List.range (v + 1)).foldl (fun live u => live.replay base (acts u)) []

variable {base : String} {key : FileKey} {actions : List Action} {acts : Nat → List Action}
  {v : Nat}

@[simp] theorem adds_nil
    : ¬Adds base key [] := by
  simp [Adds]

/-- Some actions add a key if the first or one of the rest does. -/
@[simp] theorem adds_cons {action : Action}
    : Adds base key (action :: actions)
      ↔ (action.added?.isSome ∧ FileKey.of base action = key) ∨ Adds base key actions := by
  simp [Adds]

@[simp] theorem removes_nil
    : ¬Removes base key [] := by
  simp [Removes]

/-- Some actions remove a key if the first or one of the rest does. -/
@[simp] theorem removes_cons {action : Action}
    : Removes base key (action :: actions)
      ↔ (action.removed?.isSome ∧ FileKey.of base action = key)
        ∨ Removes base key actions := by
  simp [Removes]

/-- The last addition is that of the later actions, or else that of the earlier ones. -/
theorem lastAdd?_append (earlier later : List Action)
    : lastAdd? base key (earlier ++ later)
      = (lastAdd? base key later).or (lastAdd? base key earlier) := by
  simp [lastAdd?, List.getLast?_append]

/-- An addition in front is the last one of its key only if no other follows. -/
theorem lastAdd?_cons_add (file : AddFile) (rest : List Action)
    : lastAdd? base key (.add file :: rest)
      = (lastAdd? base key rest).or
          (if FileKey.of base (.add file) = key then some file else none) := by
  have single : lastAdd? base key [.add file]
      = if FileKey.of base (.add file) = key then some file else none := by
    by_cases same : FileKey.of base (.add file) = key <;> simp [lastAdd?, Action.added?, same]
  rw [← single, ← lastAdd?_append, List.singleton_append]

theorem lastAdd?_cons_remove (file : RemoveFile) (rest : List Action)
    : lastAdd? base key (.remove file :: rest) = lastAdd? base key rest :=
  rfl

/-- The last addition under a key adds a file with that key. -/
theorem key_of_lastAdd? {file : AddFile} (h : lastAdd? base key actions = some file)
    : FileKey.of base (.add file) = key := by
  simpa using (List.mem_filter.mp (List.mem_of_getLast? h)).2

/-- A file has a last addition if it is added at all. -/
theorem lastAdd?_eq_none_iff
    : lastAdd? base key actions = none ↔ ¬Adds base key actions := by
  induction actions with
  | nil => simp [lastAdd?]
  | cons action rest ih =>
      cases action with
      | remove file => simp [lastAdd?_cons_remove, ih, Action.added?]
      | add file =>
          by_cases same : FileKey.of base (.add file) = key <;>
            simp [lastAdd?_cons_add, Action.added?, same, ih]

/-- A key that has a last addition is added, by induction on the actions. -/
theorem adds_of_lastAdd? {file : AddFile} (h : lastAdd? base key actions = some file)
    : Adds base key actions := by
  apply Decidable.byContradiction
  intro none
  rw [lastAdd?_eq_none_iff.mpr none] at h
  cases h

/-- The next version adds its actions at the end. -/
theorem actionsUpTo_succ (acts : Nat → List Action) (v : Nat)
    : actionsUpTo acts (v + 1) = actionsUpTo acts v ++ acts (v + 1) := by
  simp [actionsUpTo, List.range_succ (n := v + 1)]

-----------------------------------------------------------------------------------------
-- Live files, version by version
-----------------------------------------------------------------------------------------

/-- At the first version just what it adds is live. -/
theorem liveAt_zero
    : LiveAt base acts 0 key ↔ Adds base key (acts 0) := by
  constructor
  · intro live
    rcases live with ⟨u, upTo, adds, _⟩
    obtain rfl := Nat.le_zero.mp upTo
    exact adds
  · intro adds
    exact ⟨0, Nat.le_refl 0, adds, fun w later upTo => by omega⟩

/-- A version makes live what it adds, and leaves live what it does not remove. -/
theorem liveAt_succ
    : LiveAt base acts (v + 1) key
      ↔ Adds base key (acts (v + 1))
        ∨ (LiveAt base acts v key ∧ ¬Removes base key (acts (v + 1))) := by
  constructor
  · intro live
    rcases live with ⟨u, upTo, adds, kept⟩
    by_cases last : u = v + 1
    · exact Or.inl (last ▸ adds)
    · refine Or.inr ⟨⟨u, by omega, adds, ?_⟩, kept (v + 1) (by omega) (Nat.le_refl _)⟩
      intro w later before
      exact kept w later (by omega)
  · intro before
    rcases before with adds | ⟨⟨u, upTo, adds, kept⟩, stays⟩
    · exact ⟨v + 1, Nat.le_refl _, adds, fun w later upTo => by omega⟩
    · refine ⟨u, by omega, adds, fun w later before => ?_⟩
      by_cases last : w = v + 1
      · exact last ▸ stays
      · exact kept w later (by omega)

/-- A live file was added. -/
theorem adds_of_liveAt (h : LiveAt base acts v key)
    : Adds base key (actionsUpTo acts v) := by
  obtain ⟨u, upTo, ⟨action, member, adds⟩, _⟩ := h
  have listed : action ∈ actionsUpTo acts v :=
    List.mem_flatMap.mpr ⟨u, List.mem_range.mpr (by omega), member⟩
  exact ⟨action, listed, adds⟩

-----------------------------------------------------------------------------------------
-- Replay
-----------------------------------------------------------------------------------------

namespace LiveFiles

variable {live : LiveFiles}

/-- Dropping what some actions remove leaves the other keys, by induction on the actions. -/
theorem lookup_foldl_drop (actions : List Action) (live : LiveFiles)
    : (actions.foldl (drop base) live).lookup key
      = if Removes base key actions then none else live.lookup key := by
  induction actions generalizing live with
  | nil => simp
  | cons action rest ih =>
      rw [List.foldl_cons, ih]
      cases action with
      | add file => simp [drop, Action.removed?]
      | remove file =>
          by_cases same : key = FileKey.of base (.remove file)
          · simp [drop, Action.removed?, lookup_without, same]
          · simp [drop, Action.removed?, lookup_without, same, Ne.symm same]

/-- Taking what some actions add leaves the last addition of each key. -/
theorem lookup_foldl_take (actions : List Action) (live : LiveFiles)
    : (actions.foldl (take base) live).lookup key
      = (lastAdd? base key actions).or (live.lookup key) := by
  induction actions generalizing live with
  | nil => simp [lastAdd?]
  | cons action rest ih =>
      rw [List.foldl_cons, ih]
      cases action with
      | remove file => rfl
      | add file =>
          rw [lastAdd?_cons_add, Option.or_assoc, take, lookup_put]
          by_cases same : key = FileKey.of base (.add file)
          · simp [same]
          · simp [same, Ne.symm same]

/-- After a version a file is kept as the version adds it last, or else as it was, unless the
version removes it.
-/
theorem lookup_replay (live : LiveFiles) (actions : List Action)
    : (live.replay base actions).lookup key
      = (lastAdd? base key actions).or
          (if Removes base key actions then none else live.lookup key) := by
  rw [replay, lookup_foldl_take, lookup_foldl_drop]

/-- A replay of actions keeps one file for each key. -/
theorem nodup_keys_replay (h : (keys live).Nodup) (actions : List Action)
    : (keys (live.replay base actions)).Nodup := by
  have keeps (step : LiveFiles → Action → LiveFiles)
      (distinct : ∀ live action, (keys live).Nodup → (keys (step live action)).Nodup)
      (live : LiveFiles) (h : (keys live).Nodup)
      : (keys (actions.foldl step live)).Nodup := by
    induction actions generalizing live with
    | nil => exact h
    | cons action rest ih => exact ih (step live action) (distinct live action h)
  refine keeps _ ?_ _ (keeps _ ?_ live h)
  · intro live action h
    cases action with
    | add file => exact nodup_keys_put h _ file
    | remove file => exact h
  · intro live action h
    cases action with
    | add file => exact h
    | remove file => exact nodup_keys_without h _

end LiveFiles

theorem replayedTo_zero
    : replayedTo base acts 0 = LiveFiles.replay base [] (acts 0) :=
  rfl

/-- The replay goes on with the actions of the next version. -/
theorem replayedTo_succ
    : replayedTo base acts (v + 1)
      = (replayedTo base acts v).replay base (acts (v + 1)) := by
  simp [replayedTo, List.range_succ (n := v + 1)]

/-- The replay up to a version has one file for each key, by induction on the version. -/
theorem nodup_keys_replayedTo
    : (keys (replayedTo base acts v)).Nodup := by
  induction v with
  | zero =>
      have none : (keys ([] : LiveFiles)).Nodup := List.nodup_nil
      exact LiveFiles.nodup_keys_replay none _
  | succ v ih => exact replayedTo_succ ▸ LiveFiles.nodup_keys_replay ih _

/-- The replay keeps the last addition of each live file, and nothing else. -/
theorem lookup_replayedTo {file : AddFile}
    : (replayedTo base acts v).lookup key = some file
      ↔ LiveAt base acts v key ∧ lastAdd? base key (actionsUpTo acts v) = some file := by
  induction v generalizing file with
  | zero =>
      rw [replayedTo_zero, LiveFiles.lookup_replay, liveAt_zero]
      have here : actionsUpTo acts 0 = acts 0 := by simp [actionsUpTo]
      simp only [List.lookup_nil, ite_self, Option.or_none, here]
      exact ⟨fun last => ⟨adds_of_lastAdd? last, last⟩, And.right⟩
  | succ v ih =>
      rw [replayedTo_succ, LiveFiles.lookup_replay, liveAt_succ, actionsUpTo_succ,
        lastAdd?_append]
      cases last : lastAdd? base key (acts (v + 1)) with
      | some added => simp [adds_of_lastAdd? last]
      | none =>
          have notAdded := lastAdd?_eq_none_iff.mp last
          by_cases removed : Removes base key (acts (v + 1))
          · simp [notAdded, removed]
          · simp [notAdded, removed, ih]

/-- The keys of the replay are those of the live files. -/
theorem mem_keys_replayedTo
    : key ∈ keys (replayedTo base acts v) ↔ LiveAt base acts v key := by
  constructor
  · intro member
    obtain ⟨⟨_, file⟩, isEntry, rfl⟩ := List.mem_map.mp member
    exact (lookup_replayedTo.mp ((mem_iff_lookup nodup_keys_replayedTo).mp isEntry)).1
  · intro live
    cases last : lastAdd? base key (actionsUpTo acts v) with
    | none => exact absurd (adds_of_liveAt live) (lastAdd?_eq_none_iff.mp last)
    | some file =>
        have found := lookup_replayedTo.mpr ⟨live, last⟩
        exact List.mem_map.mpr ⟨_, (mem_iff_lookup nodup_keys_replayedTo).mpr found, rfl⟩

-----------------------------------------------------------------------------------------
-- The listing
-----------------------------------------------------------------------------------------

/-- (ListsLive base acts v files) says that additions of files are a listing of the live files
at a version: one for each live key, which is its last addition, in the order of partition
values and paths.
-/
structure ListsLive (base : String) (acts : Nat → List Action) (v : Nat) (files : List AddFile)
    : Prop where
  distinct : (files.map fun file => FileKey.of base (.add file)).Nodup
  live
    : ∀ key,
        key ∈ files.map (fun file => FileKey.of base (.add file)) ↔ LiveAt base acts v key
  last
    : ∀ file ∈ files,
        lastAdd? base (FileKey.of base (.add file)) (actionsUpTo acts v) = some file
  ordered : files.Pairwise fun a b => LiveFiles.comesFirst a b = true

/-- A listed file was added by some version. -/
theorem ListsLive.exists_added {files : List AddFile} {x : AddFile}
    (listed : ListsLive base acts v files) (member : x ∈ files)
    : ∃ u ≤ v, .add x ∈ acts u := by
  have added := List.mem_of_getLast? (listed.last x member)
  obtain ⟨action, isAction, isAdd⟩ := List.mem_filterMap.mp (List.mem_filter.mp added).1
  obtain ⟨u, upTo, isAct⟩ := List.mem_flatMap.mp isAction
  cases action with
  | remove file => cases isAdd
  | add file =>
      obtain rfl : file = x := Option.some.inj isAdd
      have := List.mem_range.mp upTo
      exact ⟨u, by omega, isAct⟩

namespace LiveFiles

/-- Any two added files are ordered by their shown values and paths. -/
theorem comesFirst_total (a b : AddFile)
    : comesFirst a b || comesFirst b a :=
  (Order.pairs_linear
    (Order.lists_linear (Order.pairs_linear Order.texts_linear Order.texts_linear))
    Order.texts_linear).total _ _

/-- The order of added files is transitive. -/
theorem comesFirst_trans {a b c : AddFile} (first : comesFirst a b) (second : comesFirst b c)
    : comesFirst a c :=
  (Order.pairs_linear
    (Order.lists_linear (Order.pairs_linear Order.texts_linear Order.texts_linear))
    Order.texts_linear).trans first second

end LiveFiles

/-- The listing of the replay is a listing of the live files. -/
theorem listsLive_inOrder (base : String) (acts : Nat → List Action) (v : Nat)
    : ListsLive base acts v (replayedTo base acts v).inOrder := by
  have kept {key : FileKey} {file : AddFile} (member : (key, file) ∈ replayedTo base acts v)
      : lastAdd? base key (actionsUpTo acts v) = some file :=
    (lookup_replayedTo.mp ((mem_iff_lookup nodup_keys_replayedTo).mp member)).2
  have listed : (replayedTo base acts v).inOrder.Perm ((replayedTo base acts v).map (·.2)) :=
    Order.sort_perm _
  -- each entry is kept under the key of its own file
  have sameKeys
      : ((replayedTo base acts v).map (·.2)).map (fun file => FileKey.of base (.add file))
        = keys (replayedTo base acts v) := by
    rw [List.map_map]
    exact List.map_congr_left fun entry member => key_of_lastAdd? (kept member)
  have perm
      : ((replayedTo base acts v).inOrder.map fun file => FileKey.of base (.add file)).Perm
          (keys (replayedTo base acts v)) :=
    sameKeys ▸ listed.map _
  refine ⟨perm.nodup_iff.mpr nodup_keys_replayedTo, fun key => ?_, fun file member => ?_, ?_⟩
  · exact perm.mem_iff.trans mem_keys_replayedTo
  · obtain ⟨⟨key, _⟩, isEntry, rfl⟩ := List.mem_map.mp (listed.mem_iff.mp member)
    have last := kept isEntry
    rwa [key_of_lastAdd? last]
  · exact Order.sort_pairwise LiveFiles.comesFirst_total LiveFiles.comesFirst_trans _

-----------------------------------------------------------------------------------------
-- The replay of a log in files
-----------------------------------------------------------------------------------------

section Files

variable {tree : Tree} {place : Place} {n : Nat}

/-- Where the actions of all versions can be read, the replay is a fold over them. -/
theorem replayedAt_eq_foldl {us : List Nat}
    (valid : ∀ u ∈ us, actionsAt tree place u = .ok (acts u)) (live : LiveFiles)
    : replayedAt tree place live (us.map fun (u : Nat) => (u : Int))
      = .ok (us.foldl (fun live u => live.replay place.base.text (acts u)) live) := by
  induction us generalizing live with
  | nil => rfl
  | cons u rest ih =>
      have here := valid u List.mem_cons_self
      have later := ih fun u member => valid u (List.mem_cons_of_mem _ member)
      simp only [List.map_cons, replayedAt, here, bind, Except.bind, List.foldl_cons]
      exact later _

/-- The live files of a contiguous log are those of the replay of its actions. -/
theorem liveFilesAt_eq_replayedTo (contiguous : Contiguous tree place n)
    (valid : ∀ u ≤ v, actionsAt tree place u = .ok (acts u)) (past : v ≤ n)
    : liveFilesAt tree place v = .ok (replayedTo place.base.text acts v) := by
  have upTo : ∀ u ∈ List.range (v + 1), actionsAt tree place u = .ok (acts u) := by
    intro u member
    have := List.mem_range.mp member
    exact valid u (by omega)
  have begins : (Log.upTo v).head? = some 0 := by
    simp [Log.upTo, List.range_succ_eq_map]
  rw [liveFilesAt, contiguous]
  simp only [bind, Except.bind, filter_upTo past, begins, ne_eq, not_true_eq_false, if_false]
  exact replayedAt_eq_foldl upTo []

end Files

end DeltaFeed.Log
