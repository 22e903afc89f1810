import DeltaFeed.Proofs.Change.Overlap

/-! What a version changed, path by path. Of the additions at a path the last one counts, and of the
removals too; neither counts where a removal comes with an addition with a deletion vector. So only
the order of the additions at each path matters, and that of the removals.
-/

namespace DeltaFeed

open Log (FileKey)

-----------------------------------------------------------------------------------------
-- The actions at a path
-----------------------------------------------------------------------------------------

/-- (addsAt base path actions) are the files that are added at a full path, in order. -/
def addsAt (base path : String) (actions : List Action) : List AddFile :=
  (actions.filterMap Action.added?).filter fun file => Location.full base file.path = path

/-- (removesAt base path actions) are the files that are removed at a full path, in order. -/
def removesAt (base path : String) (actions : List Action) : List RemoveFile :=
  (actions.filterMap Action.removed?).filter fun file => Location.full base file.path = path

/-- (masksAt base path actions) are the files that are added at a full path with a deletion vector,
in order.
-/
def masksAt (base path : String) (actions : List Action) : List AddFile :=
  (addsAt base path actions).filter (·.deletionVector.isSome)

variable {base path : String} {actions others : List Action}

/-- A path is removed exactly if there are removals at it. -/
theorem removesPath_iff_removesAt
    : RemovesPath base path actions ↔ removesAt base path actions ≠ [] := by
  constructor
  · rintro ⟨action, member, isRemoval, rfl⟩
    cases action with
    | add file => cases isRemoval
    | remove file =>
        exact List.ne_nil_of_mem (List.mem_filter.mpr
          ⟨List.mem_filterMap.mpr ⟨_, member, rfl⟩, decide_eq_true rfl⟩)
  · intro some
    obtain ⟨file, listed⟩ := List.exists_mem_of_ne_nil _ some
    obtain ⟨removed, isHere⟩ := List.mem_filter.mp listed
    obtain ⟨action, member, isFile⟩ := List.mem_filterMap.mp removed
    cases action with
    | add file => cases isFile
    | remove file =>
        cases isFile
        exact ⟨_, member, rfl, of_decide_eq_true isHere⟩

/-- A path is masked exactly if there are additions with a vector at it. -/
theorem masksPath_iff_masksAt
    : MasksPath base path actions ↔ masksAt base path actions ≠ [] := by
  constructor
  · rintro ⟨action, member, isAddition, masked, rfl⟩
    cases action with
    | remove file => cases isAddition
    | add file =>
        exact List.ne_nil_of_mem (List.mem_filter.mpr ⟨List.mem_filter.mpr
          ⟨List.mem_filterMap.mpr ⟨_, member, rfl⟩, decide_eq_true rfl⟩, masked⟩)
  · intro some
    obtain ⟨file, listed⟩ := List.exists_mem_of_ne_nil _ some
    obtain ⟨listed, masked⟩ := List.mem_filter.mp listed
    obtain ⟨added, isHere⟩ := List.mem_filter.mp listed
    obtain ⟨action, member, isFile⟩ := List.mem_filterMap.mp added
    cases action with
    | remove file => cases isFile
    | add file =>
        cases isFile
        exact ⟨_, member, rfl, masked, of_decide_eq_true isHere⟩

/-- (SameAtEachPath base actions others) says that at each full path the same files are added in the
same order, and the same are removed in the same order.
-/
structure SameAtEachPath (base : String) (actions others : List Action) : Prop where
  adds : ∀ path, addsAt base path actions = addsAt base path others
  removes : ∀ path, removesAt base path actions = removesAt base path others

namespace SameAtEachPath

/-- The same additions at a path are masked alike. -/
theorem masks (h : SameAtEachPath base actions others) (path : String)
    : masksAt base path actions = masksAt base path others := by
  rw [masksAt, h.adds, masksAt]

/-- What has the same additions at each path masks the same paths. -/
theorem masksPath_iff (h : SameAtEachPath base actions others) (path : String)
    : MasksPath base path actions ↔ MasksPath base path others := by
  rw [masksPath_iff_masksAt, masksPath_iff_masksAt, h.masks]

/-- What has the same removals at each path removes the same paths. -/
theorem removesPath_iff (h : SameAtEachPath base actions others) (path : String)
    : RemovesPath base path actions ↔ RemovesPath base path others := by
  rw [removesPath_iff_removesAt, removesPath_iff_removesAt, h.removes]

end SameAtEachPath

-----------------------------------------------------------------------------------------
-- The change of a version
-----------------------------------------------------------------------------------------

namespace TableChange

variable {version : Int} {table : Table} {change other : TableChange}

/-- (change.Reflects version table actions) says that a change is what some actions amount to. At
each path the last addition and the last removal count, unless the path is added with a deletion
vector and removed. There is one anomaly for each path that is added with a deletion vector and not
removed, about the last such addition, and the path stays added.
-/
structure Reflects (change : TableChange) (version : Int) (table : Table) (actions : List Action)
    : Prop where
  table_eq : change.table = table
  identified : change.sourceIdentifier = Text.decimal version
  addedOnce : (keys change.diff.added).Nodup
  added
    : ∀ path,
        change.diff.added.lookup path
        = if MasksPath table.basePath path actions ∧ RemovesPath table.basePath path actions
          then none
          else (addsAt table.basePath path actions).getLast?.map (.ofAdd table.fileContext)
  removedOnce : (keys change.diff.removed).Nodup
  removed
    : ∀ path,
        change.diff.removed.lookup path
        = if MasksPath table.basePath path actions ∧ RemovesPath table.basePath path actions
          then none
          else (removesAt table.basePath path actions).getLast?.map (.ofRemove table.fileContext)
  reportedOnce : (change.anomalies.map (·.physicalPath)).Nodup
  reported
    : ∀ anomaly,
        anomaly ∈ change.anomalies
        ↔ ∃ path file,
            ¬RemovesPath table.basePath path actions
            ∧ (masksAt table.basePath path actions).getLast? = some file
            ∧ anomaly
              = { version
                  physicalPath := path
                  vectorReference := file.deletionVector.map (·.reference)
                  errorCode := ErrorCode.unpairedVector.id }
  stays : ∀ anomaly ∈ change.anomalies, anomaly.physicalPath ∈ keys change.diff.added

/-- (change.SameApartFromOrder other) says that two changes differ only in the order of their
entries and anomalies.
-/
structure SameApartFromOrder (change other : TableChange) : Prop where
  table_eq : change.table = other.table
  identified : change.sourceIdentifier = other.sourceIdentifier
  added : change.diff.added.Perm other.diff.added
  removed : change.diff.removed.Perm other.diff.removed
  anomalies : change.anomalies.Perm other.anomalies

/-- What the actions at each path amount to is one change, apart from the order of its entries. -/
theorem Reflects.sameApartFromOrder (h : change.Reflects version table actions)
    (h' : other.Reflects version table others)
    (same : SameAtEachPath table.basePath actions others)
    : change.SameApartFromOrder other where
  table_eq := h.table_eq.trans h'.table_eq.symm
  identified := h.identified.trans h'.identified.symm
  added := by
    refine perm_of_lookup_eq h.addedOnce h'.addedOnce fun path => ?_
    rw [h.added, h'.added]
    simp only [same.masksPath_iff, same.removesPath_iff, same.adds]
  removed := by
    refine perm_of_lookup_eq h.removedOnce h'.removedOnce fun path => ?_
    rw [h.removed, h'.removed]
    simp only [same.masksPath_iff, same.removesPath_iff, same.removes]
  anomalies := by
    refine (List.perm_ext_iff_of_nodup h.reportedOnce.of_map h'.reportedOnce.of_map).mpr ?_
    intro anomaly
    rw [h.reported, h'.reported]
    simp only [same.removesPath_iff, same.masks]

end TableChange

-----------------------------------------------------------------------------------------
-- Gathered files
-----------------------------------------------------------------------------------------

namespace Change

variable {context : FileContext}

/-- Files are gathered kind by kind. -/
theorem foldl_take (context : FileContext) (actions : List Action) (gathered : Gathered)
    : actions.foldl (fun gathered action => gathered.take context action) gathered
      = { added :=
            (actions.filterMap Action.added?).foldl
              (fun entries file =>
                put (Location.full context.basePath file.path) (.ofAdd context file) entries)
              gathered.added
          removed :=
            (actions.filterMap Action.removed?).foldl
              (fun entries file =>
                put (Location.full context.basePath file.path) (.ofRemove context file) entries)
              gathered.removed
          vectors :=
            ((actions.filterMap Action.added?).filter (·.deletionVector.isSome)).foldl
              (fun entries file =>
                put (Location.full context.basePath file.path)
                  (file.deletionVector.map (·.reference)) entries)
              gathered.vectors } := by
  induction actions generalizing gathered with
  | nil => rfl
  | cons action rest ih =>
      rw [List.foldl_cons, ih]
      cases action with
      | remove file => rfl
      | add file =>
          have isAdded : Action.added? (.add file) = some file := rfl
          rw [List.filterMap_cons_some isAdded, List.filter_cons]
          by_cases masked : file.deletionVector.isSome = true
          · simp only [Gathered.take, if_pos masked]
            rfl
          · simp only [Gathered.take, if_neg masked]
            rfl

/-- The last addition at a path counts. -/
theorem lookup_added (path : String)
    : (gather context actions).added.lookup path
      = (addsAt context.basePath path actions).getLast?.map (.ofAdd context) := by
  rw [gather, foldl_take, lookup_foldl_put, List.lookup_nil, Option.or_none]
  rfl

/-- The last removal at a path counts, like the last addition. -/
theorem lookup_removed (path : String)
    : (gather context actions).removed.lookup path
      = (removesAt context.basePath path actions).getLast?.map (.ofRemove context) := by
  rw [gather, foldl_take, lookup_foldl_put, List.lookup_nil, Option.or_none]
  rfl

/-- The last vector at a path counts, whether or not a later addition has none. -/
theorem lookup_vectors (path : String)
    : (gather context actions).vectors.lookup path
      = (masksAt context.basePath path actions).getLast?.map
          fun file => file.deletionVector.map (·.reference) := by
  rw [gather, foldl_take, lookup_foldl_put, List.lookup_nil, Option.or_none, List.filter_comm]
  rfl

/-- No kind of gathered files has a path twice. -/
theorem nodup_keys_gather (context : FileContext) (actions : List Action)
    : (keys (gather context actions).added).Nodup
      ∧ (keys (gather context actions).removed).Nodup
      ∧ (keys (gather context actions).vectors).Nodup := by
  have nothing {α : Type} : (keys ([] : List (String × α))).Nodup := List.nodup_nil
  rw [gather, foldl_take]
  exact ⟨nodup_keys_foldl_put nothing _, nodup_keys_foldl_put nothing _,
    nodup_keys_foldl_put nothing _⟩

/-- A path is paired exactly if it is masked and removed as well. -/
theorem isPaired_iff
    : (gather context actions).isPaired path = true
      ↔ MasksPath context.basePath path actions ∧ RemovesPath context.basePath path actions := by
  obtain ⟨_, removed, vectors⟩ := mem_keys_foldl_take path context actions {}
  simp only [keys_nil, List.not_mem_nil, false_or] at removed vectors
  rw [Gathered.isPaired, Bool.and_eq_true, List.contains_iff_mem, List.contains_iff_mem]
  exact and_congr vectors removed

/-- A vector without a removal is that of the last addition with a vector at a path that is not
removed.
-/
theorem mem_unpaired {reference : Option String}
    : (path, reference) ∈ (gather context actions).unpaired
      ↔ ¬RemovesPath context.basePath path actions
        ∧ ∃ file,
            (masksAt context.basePath path actions).getLast? = some file
            ∧ file.deletionVector.map (·.reference) = reference := by
  obtain ⟨_, removed, _⟩ := mem_keys_foldl_take path context actions {}
  simp only [keys_nil, List.not_mem_nil, false_or] at removed
  rw [Gathered.unpaired, List.mem_filter, mem_iff_lookup (nodup_keys_gather context actions).2.2,
    lookup_vectors, Option.map_eq_some_iff, and_comm, ← removed]
  simp [gather]

/-- The change of a version reflects its actions. -/
theorem ofActions_reflects (version : Int) (table : Table) (actions : List Action)
    : (ofActions version table actions).Reflects version table actions := by
  obtain ⟨addedOnce, removedOnce, vectorsOnce⟩ := nodup_keys_gather table.fileContext actions
  have filtered {α : Type} {p : String × α → Bool} {entries : List (String × α)}
      (distinct : (keys entries).Nodup)
      : (keys (entries.filter p)).Nodup :=
    (List.filter_sublist.map _).nodup distinct
  have paths
      : (ofActions version table actions).anomalies.map (·.physicalPath)
        = keys (gather table.fileContext actions).unpaired := by
    simp [ofActions, Gathered.anomalies, keys, Function.comp_def]
  exact {
    table_eq := rfl
    identified := rfl
    addedOnce := filtered addedOnce
    added path := by
      refine (lookup_filter_keys (!(gather table.fileContext actions).isPaired ·) path _).trans ?_
      simp only [Bool.not_eq_true', Bool.eq_false_iff, ne_eq, isPaired_iff, lookup_added, ite_not]
      rfl
    removedOnce := filtered removedOnce
    removed path := by
      refine (lookup_filter_keys (!(gather table.fileContext actions).isPaired ·) path _).trans ?_
      simp only [Bool.not_eq_true', Bool.eq_false_iff, ne_eq, isPaired_iff, lookup_removed,
        ite_not]
      rfl
    reportedOnce := paths ▸ filtered vectorsOnce
    reported anomaly := by
      simp only [ofActions, Gathered.anomalies, List.mem_map, Prod.exists, mem_unpaired]
      constructor
      · rintro ⟨path, _, ⟨stays, file, last, rfl⟩, rfl⟩
        exact ⟨path, file, stays, last, rfl⟩
      · rintro ⟨path, file, stays, last, rfl⟩
        exact ⟨path, _, ⟨stays, file, last, rfl⟩, rfl⟩
    stays anomaly reported := by
      have listed := List.mem_map_of_mem (f := (·.physicalPath)) reported
      rw [paths, mem_keys_unpaired] at listed
      exact mem_keys_added.mpr ⟨listed.1.addsPath, fun paired => listed.2 paired.2⟩ }

/-- The change of a version is extracted from any actions, and it is what the actions at each path
amount to. It does not change if the actions are put into another order in which the additions at
each path come in the same order, and so do the removals, apart from the order of its entries.
-/
theorem extract_reflects {σ : Type} (s : σ) (version : Int) (table : Table)
    (same : SameAtEachPath table.basePath actions others)
    : ∃ change other,
        ((extract version table actions).run s).result = .ok change
        ∧ change.Reflects version table actions
        ∧ ((extract version table others).run s).result = .ok other
        ∧ change.SameApartFromOrder other := by
  have extracted (actions : List Action)
      : ((extract version table actions).run s).result = .ok (ofActions version table actions) :=
    (extract_yields version table actions (Q := fun _ => True) trivial).result_eq
  have reflects := ofActions_reflects version table
  exact ⟨_, _, extracted actions, reflects actions, extracted others,
    (reflects actions).sameApartFromOrder (reflects others) same⟩

def sampleMask (inline : String) : DeletionVector :=
  { storageType := "i", pathOrInline := inline }

/-- The actions of a version that writes one path in two ways, and has a path without a removal, one
with a removal of a masked file, and one with a removal of a plain file.
-/
def sampleMixed : List Action :=
  [.add { path := "a", deletionVector := some (sampleMask "x") },
    .remove { path := "b" },
    .add { path := "%61", deletionVector := some (sampleMask "y") },
    .remove { path := "c" },
    .add { path := "c", deletionVector := some (sampleMask "z") },
    .add { path := "b", size := 1 },
    .add { path := "b", size := 2 }]

/-- The same actions in another order. -/
def sampleReordered : List Action :=
  [.add { path := "b", size := 1 },
    .add { path := "c", deletionVector := some (sampleMask "z") },
    .add { path := "a", deletionVector := some (sampleMask "x") },
    .remove { path := "c" },
    .add { path := "b", size := 2 },
    .remove { path := "b" },
    .add { path := "%61", deletionVector := some (sampleMask "y") }]

theorem sameAtEachPath_sampleMixed
    : SameAtEachPath "t" sampleMixed sampleReordered := by
  have a : Location.full "t" "a" = "t/a" := by decide +kernel
  have a' : Location.full "t" "%61" = "t/a" := by decide +kernel
  have b : Location.full "t" "b" = "t/b" := by decide +kernel
  have c : Location.full "t" "c" = "t/c" := by decide +kernel
  constructor <;> intro path
  · by_cases isA : path = "t/a"
    · subst isA
      decide +kernel
    · by_cases isB : path = "t/b"
      · subst isB
        decide +kernel
      · simp [addsAt, sampleMixed, sampleReordered, Action.added?, List.filterMap_cons,
          List.filter_cons, a, a', b, c, Ne.symm isA, Ne.symm isB]
  · by_cases isB : path = "t/b"
    · subst isB
      decide +kernel
    · simp [removesAt, sampleMixed, sampleReordered, Action.removed?, List.filterMap_cons,
        List.filter_cons, b, c, Ne.symm isB]

theorem extract_reflects_sampleMixed
    : SameAtEachPath "t" sampleMixed sampleReordered
      ∧ ∃ change other,
          ((extract 3 sampleUnmasked sampleMixed : Op Unit TableChange).run ()).result = .ok change
          ∧ change.Reflects 3 sampleUnmasked sampleMixed
          ∧ ((extract 3 sampleUnmasked sampleReordered : Op Unit TableChange).run ()).result
            = .ok other
          ∧ change.SameApartFromOrder other :=
  ⟨sameAtEachPath_sampleMixed,
    extract_reflects () 3 sampleUnmasked sameAtEachPath_sampleMixed⟩

end Change

end DeltaFeed
