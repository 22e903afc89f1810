import DeltaFeed.Proofs.Change.PathChanges
import DeltaFeed.Proofs.Feed.Sessions

/-! Paths that a change has both among its added and among its removed files. Only an addition with
a deletion vector is reconciled with a removal at its path, and only where the removal is missing is
there an anomaly. So no path is on both sides and reported, and a path on both sides is one that is
added without a vector and removed.
-/

namespace DeltaFeed

/-- (change.Overlaps path) says that a change has a path both among its added and among its removed
files.
-/
def TableChange.Overlaps (change : TableChange) (path : String) : Prop :=
  path ∈ keys change.diff.added ∧ path ∈ keys change.diff.removed

/-- (change.Reports path) says that an anomaly of a change is at a path. -/
def TableChange.Reports (change : TableChange) (path : String) : Prop :=
  ∃ anomaly ∈ change.anomalies, anomaly.physicalPath = path

instance (change : TableChange) (path : String)
    : Decidable (change.Overlaps path) :=
  inferInstanceAs (Decidable (_ ∧ _))

instance (change : TableChange) (path : String)
    : Decidable (change.Reports path) :=
  inferInstanceAs (Decidable (∃ anomaly ∈ change.anomalies, anomaly.physicalPath = path))

namespace Change

variable {path : String} {actions : List Action}

/-- The paths of the vectors without a removal. -/
theorem mem_keys_unpaired (context : FileContext)
    : path ∈ keys (gather context actions).unpaired
      ↔ MasksPath context.basePath path actions
        ∧ ¬RemovesPath context.basePath path actions := by
  obtain ⟨_, removed, vectors⟩ := mem_keys_foldl_take path context actions {}
  simp only [keys_nil, List.not_mem_nil, false_or] at removed vectors
  rw [Gathered.unpaired,
    mem_keys_filter (p := fun path => !(keys (gather context actions).removed).contains path)]
  simp only [gather, Bool.not_eq_true', List.contains_eq_mem, decide_eq_false_iff_not, removed,
    vectors]

/-- The anomalies of a version are at the paths that it masks and does not remove. -/
theorem reports_iff (version : Int) (table : Table)
    : (ofActions version table actions).Reports path
      ↔ MasksPath table.basePath path actions ∧ ¬RemovesPath table.basePath path actions := by
  refine Iff.trans ?_ (mem_keys_unpaired table.fileContext)
  simp only [TableChange.Reports, ofActions, Gathered.anomalies, List.mem_map, keys]
  constructor
  · rintro ⟨anomaly, ⟨entry, member, rfl⟩, rfl⟩
    exact ⟨entry, member, rfl⟩
  · rintro ⟨entry, member, rfl⟩
    exact ⟨_, ⟨entry, member, rfl⟩, rfl⟩

/-- A version has a path on both sides if it adds and removes it and never adds it with a vector. -/
theorem overlaps_iff (version : Int) (table : Table)
    : (ofActions version table actions).Overlaps path
      ↔ AddsPath table.basePath path actions
        ∧ RemovesPath table.basePath path actions
        ∧ ¬MasksPath table.basePath path actions := by
  refine (and_congr mem_keys_added mem_keys_removed).trans ?_
  constructor
  · rintro ⟨⟨adds, _⟩, removes, unmasked⟩
    exact ⟨adds, removes, unmasked⟩
  · rintro ⟨adds, removes, unmasked⟩
    exact ⟨⟨adds, fun paired => unmasked paired.1⟩, removes, unmasked⟩

/-- The change of a version is extracted from any actions. Whatever path it has on both sides is not
reported: the paths on both sides are reported exactly if there are none, which is so exactly if
every path that the version adds and removes is also added with a deletion vector.
-/
theorem overlaps_reported_iff {σ : Type} (s : σ) (version : Int) (table : Table)
    (actions : List Action)
    : ∃ change,
        ((extract version table actions).run s).result = .ok change
        ∧ (∀ path,
            change.Overlaps path
            ↔ AddsPath table.basePath path actions
              ∧ RemovesPath table.basePath path actions
              ∧ ¬MasksPath table.basePath path actions)
        ∧ (∀ path, change.Overlaps path → ¬change.Reports path)
        ∧ ((∀ path, change.Overlaps path → change.Reports path)
          ↔ ∀ path,
              AddsPath table.basePath path actions
              → RemovesPath table.basePath path actions
              → MasksPath table.basePath path actions) := by
  have unreported (path : String) (overlaps : (ofActions version table actions).Overlaps path)
      : ¬(ofActions version table actions).Reports path :=
    fun reports => ((overlaps_iff version table).mp overlaps).2.2
      ((reports_iff version table).mp reports).1
  refine ⟨ofActions version table actions,
    (extract_yields version table actions (Q := fun _ => True) trivial).result_eq,
    fun path => overlaps_iff version table, unreported, ?_⟩
  constructor
  · intro reported path adds removes
    by_contra unmasked
    have overlaps := (overlaps_iff version table).mpr ⟨adds, removes, unmasked⟩
    exact unreported path overlaps (reported path overlaps)
  · intro masked path overlaps
    obtain ⟨adds, removes, unmasked⟩ := (overlaps_iff version table).mp overlaps
    exact absurd (masked path adds removes) unmasked

/-- The actions of a version that drops the deletion vector of a file: the entry with the vector is
removed, and the file is added again without one.
-/
def sampleUnmasking : List Action :=
  [.remove { path := "a", deletionVector := some { storageType := "u", pathOrInline := "x" } },
    .add { path := "a" }]

def sampleUnmasked : Table :=
  { name := "t", basePath := "t", version := 3, latestCommitTime := .utc 0 }

/-- A file that only loses its deletion vector is on both sides, and no anomaly tells of it. -/
theorem overlap_unreported_sampleUnmasking
    : ∃ change,
        ((extract 3 sampleUnmasked sampleUnmasking : Op Unit TableChange).run ()).result
          = .ok change
        ∧ change.Overlaps "t/a"
        ∧ ¬change.Reports "t/a" := by
  refine ⟨ofActions 3 sampleUnmasked sampleUnmasking, ?_, ?_, ?_⟩
  · exact (extract_yields 3 _ _ (Q := fun _ => True) trivial).result_eq
  · decide +kernel
  · decide +kernel

end Change

end DeltaFeed
