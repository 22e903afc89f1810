import DeltaFeed.Change
import DeltaFeed.Proofs.Log.Liveness
import Mathlib.Data.List.Nodup

/-! The paths that a version adds and removes, and the paths of the files that are live after
it. In a log whose versions remove what is live, and replace a deletion vector only together
with a removal, a path has one live file at most, and the difference of a version leads from the
live paths before it to those after it.
-/

namespace DeltaFeed

open Log (FileKey LiveAt Adds Removes)

-----------------------------------------------------------------------------------------
-- Paths of actions
-----------------------------------------------------------------------------------------

/-- (AddsPath base path actions) says that some action adds a file at a full path. -/
def AddsPath (base path : String) (actions : List Action) : Prop :=
  ∃ action ∈ actions, action.added?.isSome ∧ (FileKey.of base action).path = path

/-- (RemovesPath base path actions) says that some action removes a file at a full path. -/
def RemovesPath (base path : String) (actions : List Action) : Prop :=
  ∃ action ∈ actions, action.removed?.isSome ∧ (FileKey.of base action).path = path

/-- (MasksPath base path actions) says that some action adds a file with a deletion vector at a
full path.
-/
def MasksPath (base path : String) (actions : List Action) : Prop :=
  ∃ action ∈ actions,
    action.added?.isSome ∧ action.deletionVector.isSome
    ∧ (FileKey.of base action).path = path

instance (base path : String) (actions : List Action)
    : Decidable (RemovesPath base path actions) :=
  inferInstanceAs (Decidable (∃ action ∈ actions, _))

instance (base path : String) (actions : List Action)
    : Decidable (MasksPath base path actions) :=
  inferInstanceAs (Decidable (∃ action ∈ actions, _))

variable {base path : String} {actions : List Action}

/-- Some actions add a path if the first or one of the rest does. -/
@[simp] theorem addsPath_cons {action : Action}
    : AddsPath base path (action :: actions)
      ↔ (action.added?.isSome ∧ (FileKey.of base action).path = path)
        ∨ AddsPath base path actions := by
  simp [AddsPath]

/-- Some actions remove a path if the first or one of the rest does. -/
@[simp] theorem removesPath_cons {action : Action}
    : RemovesPath base path (action :: actions)
      ↔ (action.removed?.isSome ∧ (FileKey.of base action).path = path)
        ∨ RemovesPath base path actions := by
  simp [RemovesPath]

/-- Some actions mask a path if the first or one of the rest does. -/
@[simp] theorem masksPath_cons {action : Action}
    : MasksPath base path (action :: actions)
      ↔ (action.added?.isSome ∧ action.deletionVector.isSome
          ∧ (FileKey.of base action).path = path)
        ∨ MasksPath base path actions := by
  simp [MasksPath]

/-- What masks a path adds it. -/
theorem MasksPath.addsPath (h : MasksPath base path actions)
    : AddsPath base path actions :=
  have ⟨action, member, adds, _, same⟩ := h
  ⟨action, member, adds, same⟩

/-- A path is added if a key with it is. -/
theorem addsPath_iff
    : AddsPath base path actions ↔ ∃ key, Adds base key actions ∧ key.path = path := by
  constructor
  · intro addsPath
    rcases addsPath with ⟨action, member, adds, same⟩
    exact ⟨FileKey.of base action, ⟨action, member, adds, rfl⟩, same⟩
  · intro addsKey
    rcases addsKey with ⟨_, ⟨action, member, adds, rfl⟩, same⟩
    exact ⟨action, member, adds, same⟩

/-- A path is removed if a key with it is. -/
theorem removesPath_iff
    : RemovesPath base path actions ↔ ∃ key, Removes base key actions ∧ key.path = path := by
  constructor
  · intro removesPath
    rcases removesPath with ⟨action, member, removes, same⟩
    exact ⟨FileKey.of base action, ⟨action, member, removes, rfl⟩, same⟩
  · intro removesKey
    rcases removesKey with ⟨_, ⟨action, member, removes, rfl⟩, same⟩
    exact ⟨action, member, removes, same⟩

-----------------------------------------------------------------------------------------
-- The difference of a version
-----------------------------------------------------------------------------------------

namespace Change

variable {context : FileContext}

/-- The paths of gathered files are those of the actions. -/
theorem mem_keys_foldl_take (path : String) (context : FileContext) (actions : List Action)
    (gathered : Gathered)
    : let after := actions.foldl (fun gathered action => gathered.take context action) gathered
      (path ∈ keys after.added
        ↔ path ∈ keys gathered.added ∨ AddsPath context.basePath path actions)
      ∧ (path ∈ keys after.removed
        ↔ path ∈ keys gathered.removed ∨ RemovesPath context.basePath path actions)
      ∧ (path ∈ keys after.vectors
        ↔ path ∈ keys gathered.vectors ∨ MasksPath context.basePath path actions) := by
  induction actions generalizing gathered with
  | nil => simp [AddsPath, RemovesPath, MasksPath]
  | cons action rest ih =>
      obtain ⟨added, removed, vectors⟩ := ih (gathered.take context action)
      have same (file : AddFile)
          : path = (DataFile.ofAdd context file).physicalPath
            ↔ (FileKey.of context.basePath (.add file)).path = path := eq_comm
      have sameRemoved (file : RemoveFile)
          : path = (DataFile.ofRemove context file).physicalPath
            ↔ (FileKey.of context.basePath (.remove file)).path = path := eq_comm
      refine ⟨added.trans ?_, removed.trans ?_, vectors.trans ?_⟩
      · cases action with
        | remove file => simp [Gathered.take, Action.added?]
        | add file =>
            simp only [Gathered.take, mem_keys_put, addsPath_cons, Action.added?, same,
              Option.isSome_some, true_and]
            rw [or_assoc, or_left_comm]
      · cases action with
        | add file => simp [Gathered.take, Action.removed?]
        | remove file =>
            simp only [Gathered.take, mem_keys_put, removesPath_cons, Action.removed?,
              sameRemoved, Option.isSome_some, true_and]
            rw [or_assoc, or_left_comm]
      · cases action with
        | remove file => simp [Gathered.take, Action.added?]
        | add file =>
            cases masked : file.deletionVector with
            | none => simp [Gathered.take, Action.deletionVector, masked]
            | some vector =>
                simp only [Gathered.take, masked, mem_keys_put, masksPath_cons, Action.added?,
                  Action.deletionVector, same, Option.isSome_some, true_and, if_true]
                rw [or_assoc, or_left_comm]

/-- The paths that a version adds are those of its additions, apart from files that only get
another deletion vector.
-/
theorem mem_keys_added
    : path ∈ keys (gather context actions).diff.added
      ↔ AddsPath context.basePath path actions
        ∧ ¬(MasksPath context.basePath path actions
            ∧ RemovesPath context.basePath path actions) := by
  obtain ⟨added, removed, vectors⟩ := mem_keys_foldl_take path context actions {}
  simp only [keys_nil, List.not_mem_nil, false_or] at added removed vectors
  simp only [Gathered.diff]
  rw [mem_keys_filter (p := fun path => !(gather context actions).isPaired path)]
  simp only [Gathered.isPaired, gather, Bool.not_eq_true', Bool.and_eq_false_iff,
    List.contains_eq_mem, decide_eq_false_iff_not, added, removed, vectors, not_and_or]

/-- The paths that a version removes are those of its removals, apart from files that only get
another deletion vector.
-/
theorem mem_keys_removed
    : path ∈ keys (gather context actions).diff.removed
      ↔ RemovesPath context.basePath path actions
        ∧ ¬MasksPath context.basePath path actions := by
  obtain ⟨_, removed, vectors⟩ := mem_keys_foldl_take path context actions {}
  simp only [keys_nil, List.not_mem_nil, false_or] at removed vectors
  simp only [Gathered.diff]
  rw [mem_keys_filter (p := fun path => !(gather context actions).isPaired path)]
  simp only [Gathered.isPaired, gather, Bool.not_eq_true', Bool.and_eq_false_iff,
    List.contains_eq_mem, decide_eq_false_iff_not, removed, vectors]
  constructor
  · intro dropped
    rcases dropped with ⟨removes, unmasked | stays⟩
    · exact ⟨removes, unmasked⟩
    · exact absurd removes stays
  · intro dropped
    rcases dropped with ⟨removes, unmasked⟩
    exact ⟨removes, Or.inl unmasked⟩

end Change

-----------------------------------------------------------------------------------------
-- Consistent logs
-----------------------------------------------------------------------------------------

/-- (LiveBefore base acts v key) says that the file with a key is live after the version before v.
-/
def LiveBefore (base : String) (acts : Nat → List Action) : Nat → FileKey → Prop
  | 0, _ => False
  | v + 1, key => LiveAt base acts v key

/-- (LivePath base acts v path) says that there is a live file at a path. -/
def LivePath (base : String) (acts : Nat → List Action) (v : Nat) (path : String) : Prop :=
  ∃ key, LiveAt base acts v key ∧ key.path = path

/-- (Consistent base acts n) says that in each version up to n no path is added or removed twice,
that each removal is of a live file, and that the addition of a live file with another deletion
vector comes with a removal at its path.
-/
structure Consistent (base : String) (acts : Nat → List Action) (n : Nat) : Prop where
  addedOnce
    : ∀ v ≤ n,
        (((acts v).filterMap Action.added?).map fun file => Location.full base file.path).Nodup
  removedOnce
    : ∀ v ≤ n,
        (((acts v).filterMap Action.removed?).map fun file =>
          Location.full base file.path).Nodup
  removesLive : ∀ v ≤ n, ∀ key, Removes base key (acts v) → LiveBefore base acts v key
  replaces
    : ∀ v ≤ n, ∀ added key,
        Adds base added (acts v)
        → LiveBefore base acts v key
        → key.path = added.path
        → key.vectorReference ≠ added.vectorReference
        → RemovesPath base key.path (acts v)

/-- (liveKeysBefore base acts v) are the keys of the files that are live after the version
before v.
-/
def liveKeysBefore (base : String) (acts : Nat → List Action) : Nat → List FileKey
  | 0 => []
  | v + 1 => keys (Log.replayedTo base acts v)

/-- The keys that are computed as live before a version are those that are. -/
theorem mem_liveKeysBefore {acts : Nat → List Action} {v : Nat} {key : FileKey}
    : key ∈ liveKeysBefore base acts v ↔ LiveBefore base acts v key := by
  cases v with
  | zero => exact List.mem_nil_iff key
  | succ v => exact Log.mem_keys_replayedTo

/-- (ConsistentAfter base live actions) is what consistency asks of the actions of a version,
given the keys of the files that are live before it.
-/
def ConsistentAfter (base : String) (live : List FileKey) (actions : List Action) : Prop :=
  ((actions.filterMap Action.added?).map fun file => Location.full base file.path).Nodup
  ∧ ((actions.filterMap Action.removed?).map fun file => Location.full base file.path).Nodup
  ∧ (∀ action ∈ actions, action.removed?.isSome → FileKey.of base action ∈ live)
  ∧ ∀ action ∈ actions, ∀ key ∈ live,
      action.added?.isSome
      → key.path = (FileKey.of base action).path
      → key.vectorReference ≠ (FileKey.of base action).vectorReference
      → RemovesPath base key.path actions

instance (base : String) (live : List FileKey) (actions : List Action)
    : Decidable (ConsistentAfter base live actions) :=
  inferInstanceAs (Decidable (_ ∧ _ ∧ _ ∧ _))

/-- A log is consistent if each version is, after the keys that are live before it. -/
theorem consistent_iff {acts : Nat → List Action} {n : Nat}
    : Consistent base acts n
      ↔ ∀ v ≤ n, ConsistentAfter base (liveKeysBefore base acts v) (acts v) := by
  simp only [ConsistentAfter, mem_liveKeysBefore]
  constructor
  · intro h v upTo
    refine ⟨h.addedOnce v upTo, h.removedOnce v upTo, ?_, ?_⟩
    · intro action member removes
      exact h.removesLive v upTo _ ⟨action, member, removes, rfl⟩
    · intro action member key live adds
      exact h.replaces v upTo _ key ⟨action, member, adds, rfl⟩ live
  · intro h
    refine ⟨fun v upTo => (h v upTo).1, fun v upTo => (h v upTo).2.1, ?_, ?_⟩
    · intro v upTo key removesKey
      rcases removesKey with ⟨action, member, removes, rfl⟩
      exact (h v upTo).2.2.1 action member removes
    · intro v upTo added key addsKey live
      rcases addsKey with ⟨action, member, adds, rfl⟩
      exact (h v upTo).2.2.2 action member key live adds

instance (base : String) (acts : Nat → List Action) (n : Nat)
    : Decidable (Consistent base acts n) :=
  decidable_of_iff _ consistent_iff.symm

namespace Consistent

variable {acts : Nat → List Action} {n v : Nat}

/-- No version adds two files at one path. -/
theorem adds_unique (h : Consistent base acts n) (upTo : v ≤ n) {key other : FileKey}
    (adds : Adds base key (acts v)) (addsOther : Adds base other (acts v))
    (same : key.path = other.path)
    : key = other := by
  have isFile {key : FileKey} (adds : Adds base key (acts v))
      : ∃ file ∈ (acts v).filterMap Action.added?, FileKey.of base (.add file) = key := by
    obtain ⟨action, member, isAdd, isKey⟩ := adds
    cases action with
    | remove file => cases isAdd
    | add file => exact ⟨file, List.mem_filterMap.mpr ⟨_, member, rfl⟩, isKey⟩
  obtain ⟨file, member, rfl⟩ := isFile adds
  obtain ⟨otherFile, otherMember, rfl⟩ := isFile addsOther
  rw [List.inj_on_of_nodup_map (h.addedOnce v upTo) member otherMember same]

/-- There is one live file at a path at most. -/
theorem live_unique (h : Consistent base acts n) (upTo : v ≤ n) {key other : FileKey}
    (live : LiveAt base acts v key) (liveOther : LiveAt base acts v other)
    (same : key.path = other.path)
    : key = other := by
  induction v generalizing key other with
  | zero => exact h.adds_unique upTo (Log.liveAt_zero.mp live) (Log.liveAt_zero.mp liveOther) same
  | succ v ih =>
      -- a file that stays is the one that is added at its path, or else it was removed
      have kept {added stays : FileKey} (adds : Adds base added (acts (v + 1)))
          (live : LiveAt base acts v stays) (notRemoved : ¬Removes base stays (acts (v + 1)))
          (same : stays.path = added.path)
          : stays = added := by
        by_cases reference : stays.vectorReference = added.vectorReference
        · cases stays
          cases added
          simp_all
        · obtain ⟨key, removes, isPath⟩ := removesPath_iff.mp
            (h.replaces (v + 1) upTo added stays adds live same reference)
          have liveKey : LiveAt base acts v key := h.removesLive (v + 1) upTo key removes
          exact absurd (ih (by omega) liveKey live isPath ▸ removes) notRemoved
      rcases Log.liveAt_succ.mp live with adds | ⟨live, notRemoved⟩
      · rcases Log.liveAt_succ.mp liveOther with addsOther | ⟨liveOther, otherStays⟩
        · exact h.adds_unique upTo adds addsOther same
        · exact (kept adds liveOther otherStays same.symm).symm
      · rcases Log.liveAt_succ.mp liveOther with addsOther | ⟨liveOther, otherStays⟩
        · exact kept addsOther live notRemoved same
        · exact ih (by omega) live liveOther same

/-- A path is live after a version if the version adds it, or else it was live before and is not
removed.
-/
theorem livePath_succ (h : Consistent base acts n) (upTo : v + 1 ≤ n)
    : LivePath base acts (v + 1) path
      ↔ AddsPath base path (acts (v + 1))
        ∨ (LivePath base acts v path ∧ ¬RemovesPath base path (acts (v + 1))) := by
  constructor
  · intro livePath
    rcases livePath with ⟨key, live, isPath⟩
    rcases Log.liveAt_succ.mp live with adds | ⟨live, notRemoved⟩
    · exact Or.inl (addsPath_iff.mpr ⟨key, adds, isPath⟩)
    · refine Or.inr ⟨⟨key, live, isPath⟩, fun removesPath => ?_⟩
      obtain ⟨other, removes, same⟩ := removesPath_iff.mp removesPath
      have liveOther : LiveAt base acts v other := h.removesLive (v + 1) upTo other removes
      have isKey := h.live_unique (by omega) liveOther live (same.trans isPath.symm)
      exact notRemoved (isKey ▸ removes)
  · intro addedOrStays
    rcases addedOrStays with addsPath | ⟨⟨key, live, isPath⟩, stays⟩
    · obtain ⟨key, adds, isPath⟩ := addsPath_iff.mp addsPath
      exact ⟨key, Log.liveAt_succ.mpr (Or.inl adds), isPath⟩
    · refine ⟨key, Log.liveAt_succ.mpr (Or.inr ⟨live, fun removes => stays ?_⟩), isPath⟩
      exact removesPath_iff.mpr ⟨key, removes, isPath⟩

/-- The difference of a version leads from the live paths before it to those after it. -/
theorem livePath_diff (h : Consistent base acts n) (upTo : v + 1 ≤ n) {context : FileContext}
    (sameBase : context.basePath = base)
    : LivePath base acts (v + 1) path
      ↔ path ∈ keys (Change.gather context (acts (v + 1))).diff.added
        ∨ (LivePath base acts v path
            ∧ path ∉ keys (Change.gather context (acts (v + 1))).diff.removed) := by
  have wasLive (removes : RemovesPath base path (acts (v + 1))) : LivePath base acts v path := by
    obtain ⟨key, isRemoved, isPath⟩ := removesPath_iff.mp removes
    exact ⟨key, h.removesLive (v + 1) upTo key isRemoved, isPath⟩
  rw [h.livePath_succ upTo, Change.mem_keys_added, Change.mem_keys_removed, sameBase]
  constructor
  · intro addedOrStays
    rcases addedOrStays with adds | ⟨live, stays⟩
    · by_cases paired : MasksPath base path (acts (v + 1)) ∧ RemovesPath base path (acts (v + 1))
      · exact Or.inr ⟨wasLive paired.2, fun removed => removed.2 paired.1⟩
      · exact Or.inl ⟨adds, paired⟩
    · exact Or.inr ⟨live, fun removed => stays removed.1⟩
  · intro takenOrLeft
    rcases takenOrLeft with ⟨adds, _⟩ | ⟨live, notRemoved⟩
    · exact Or.inl adds
    · by_cases masks : MasksPath base path (acts (v + 1))
      · exact Or.inl masks.addsPath
      · exact Or.inr ⟨live, fun removes => notRemoved ⟨removes, masks⟩⟩

end Consistent

end DeltaFeed
