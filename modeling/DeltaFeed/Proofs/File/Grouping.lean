import DeltaFeed.File.Partition
import DeltaFeed.Proofs.Entries
import DeltaFeed.Proofs.Order

/-! The grouping of files by partition. The first file takes all files with its values into the
first group, and the others are grouped as if these had not been there: so the groups are a
partition of the files, in the order in which they first occur, and each of them has its files
in their order.
-/

namespace DeltaFeed

-----------------------------------------------------------------------------------------
-- Partition values as maps
-----------------------------------------------------------------------------------------

namespace PartitionValues

variable {a b c : PartitionValues}

/-- (a.SameMap b) says that the same columns have the same values in a and b, where null is a value
of its own.
-/
def SameMap (a b : PartitionValues) : Prop :=
  ∀ column ∈ keys a ++ keys b, a.lookup column = b.lookup column

instance (a b : PartitionValues) : Decidable (a.SameMap b) :=
  inferInstanceAs (Decidable (∀ column ∈ keys a ++ keys b, _))

/-- (inOrder? x y) compares two entries whole: by their columns, and by their values where the
columns are the same. Null and a text cannot be compared.
-/
def inOrder? (x y : String × Option String) : Option Bool :=
  if x.1 = y.1 then
    match x.2, y.2 with
    | some s, some t => some (Order.texts s t)
    | none, none => some true
    | _, _ => none
  else some (Order.texts x.1 y.1)

/-- Values are the same if they are in the order of their columns. -/
theorem same_iff
    : same a b = true ↔ sorted a = sorted b := by
  rw [same, beq_iff_eq]

theorem same_refl (a : PartitionValues)
    : same a a = true :=
  same_iff.mpr rfl

theorem same_symm (h : same a b = true)
    : same b a = true :=
  same_iff.mpr (same_iff.mp h).symm

theorem same_trans (first : same a b = true) (second : same b c = true)
    : same a c = true :=
  same_iff.mpr ((same_iff.mp first).trans (same_iff.mp second))

/-- Values that are the same as some values are the same as the same others. -/
theorem same_congr (h : same a b = true) (c : PartitionValues)
    : same a c = same b c :=
  Bool.eq_iff_iff.mpr ⟨same_trans (same_symm h), same_trans h⟩

/-- Where no column occurs twice, an entry is told by its column. -/
theorem entry_unique {values : PartitionValues} (distinct : (keys values).Nodup)
    {x y : String × Option String} (isX : x ∈ values) (isY : y ∈ values) (column : x.1 = y.1)
    : x = y := by
  obtain ⟨k, s⟩ := x
  obtain ⟨l, t⟩ := y
  obtain rfl : k = l := column
  have found := (mem_iff_lookup distinct).mp isX
  rw [(mem_iff_lookup distinct).mp isY] at found
  exact congrArg (k, ·) (Option.some.inj found).symm

/-- No two values of a map are ever compared when its entries are sorted. -/
theorem inOrder?_eq {values : PartitionValues} (distinct : (keys values).Nodup)
    {x y : String × Option String} (isX : x ∈ values) (isY : y ∈ values)
    : inOrder? x y = some (Order.texts x.1 y.1) := by
  unfold inOrder?
  split
  case isTrue column =>
    obtain rfl := entry_unique distinct isX isY column
    rw [Order.texts_linear.refl]
    split
    case h_1 s t isS isT =>
      obtain rfl := Option.some.inj (isS.symm.trans isT)
      rw [Order.texts_linear.refl]
    case h_2 => rfl
    case h_3 notTexts notNull =>
      cases value : x.2 with
      | none => exact absurd value (notNull value)
      | some s => exact absurd value (notTexts s s value)
  case isFalse => rfl

/-- Sorting the entries by their columns tells the map. -/
theorem same_iff_sameMap (distinct : (keys a).Nodup) (distinctToo : (keys b).Nodup)
    : same a b = true ↔ a.SameMap b := by
  rw [same_iff]
  constructor
  · intro sameSorted column _
    have perm : a.Perm b :=
      (Order.sort_perm a).symm.trans ((List.Perm.of_eq sameSorted).trans (Order.sort_perm b))
    refine Option.ext fun value => ?_
    rw [← mem_iff_lookup distinct, ← mem_iff_lookup distinctToo, perm.mem_iff]
  · intro sameMap
    have lookups (column : String) : a.lookup column = b.lookup column := by
      by_cases there : column ∈ keys a ++ keys b
      · exact sameMap column there
      · obtain ⟨absent, absentToo⟩ := not_or.mp (mt List.mem_append.mpr there)
        rw [lookup_eq_none_of_not_mem_keys absent, lookup_eq_none_of_not_mem_keys absentToo]
    have perm := perm_of_lookup_eq distinct distinctToo lookups
    have total (x y : String × Option String) : Order.texts x.1 y.1 || Order.texts y.1 x.1 :=
      Order.texts_linear.total x.1 y.1
    have ordered (values : PartitionValues)
        : (sorted values).Pairwise fun x y => Order.texts x.1 y.1 = true :=
      Order.sort_pairwise total Order.texts_linear.trans values
    refine List.Perm.eq_of_pairwise ?_ (ordered a) (ordered b)
      ((Order.sort_perm a).trans (perm.trans (Order.sort_perm b).symm))
    intro x y isX isY first second
    have inA : x ∈ a := (Order.sort_perm a).mem_iff.mp isX
    have inB : y ∈ b := (Order.sort_perm b).mem_iff.mp isY
    exact entry_unique distinct inA (perm.mem_iff.mpr inB)
      (Order.texts_linear.antisymm first second)

end PartitionValues

namespace FileGroup

open PartitionValues

-----------------------------------------------------------------------------------------
-- One group after the other
-----------------------------------------------------------------------------------------

/-- (shares values file) holds of the files with some partition values. -/
def shares (values : PartitionValues) (file : DataFile) : Bool :=
  same values file.partitionValues

theorem shares_self (file : DataFile)
    : shares file.partitionValues file = true :=
  same_refl _

/-- The first of some groups takes the files with its values, and the others are left to the
rest.
-/
theorem foldl_insert_cons (group : FileGroup) (groups : List FileGroup) (files : List DataFile)
    : files.foldl (fun groups file => insert file groups) (group :: groups)
      = { group with files := group.files ++ files.filter (shares group.partitionValues) }
        :: (files.filter fun file => !shares group.partitionValues file).foldl
            (fun groups file => insert file groups) groups := by
  induction files generalizing group groups with
  | nil => simp
  | cons file rest ih =>
      rw [List.foldl_cons, insert]
      by_cases isShared : same group.partitionValues file.partitionValues = true
      · rw [if_pos isShared, ih]
        simp [shares, isShared]
      · rw [if_neg isShared, ih]
        simp [shares, isShared]

/-- The group of the first file comes first, and then those of the files with other values. -/
theorem ofFiles_cons (file : DataFile) (rest : List DataFile)
    : ofFiles (file :: rest)
      = { partitionValues := file.partitionValues
          files := file :: rest.filter (shares file.partitionValues) }
        :: ofFiles (rest.filter fun other => !shares file.partitionValues other) := by
  rw [ofFiles, List.foldl_cons, insert, foldl_insert_cons]
  rfl

/-- Files are grouped one group at a time: what holds of all files holds if it goes on to hold when
the group of a new first file comes before those of the others.
-/
theorem group_induction {P : List DataFile → Prop} (nil : P [])
    (cons
      : ∀ file rest,
          P (rest.filter fun other => !shares file.partitionValues other) → P (file :: rest))
    : ∀ files, P files
  | [] => nil
  | file :: rest => cons file rest (group_induction nil cons _)
termination_by files => files.length
decreasing_by
  exact Nat.lt_succ_of_le (List.length_filter_le _ rest)

variable {files rest : List DataFile} {file other : DataFile} {group : FileGroup}
  {values others : PartitionValues}

/-- A file with some values has no values that are different from these. -/
theorem not_shares_of_apart (apart : same values others = false)
    (shared : shares others file = true)
    : (!shares values file) = true := by
  rw [Bool.not_eq_true', ← apart]
  exact Bool.eq_iff_iff.mpr
    ⟨fun first => same_trans first (same_symm shared), fun both => same_trans both shared⟩

/-- The values of a group are those of some file. -/
theorem exists_of_mem_ofFiles (member : group ∈ ofFiles files)
    : ∃ file ∈ files, file.partitionValues = group.partitionValues := by
  induction files using group_induction with
  | nil => cases member
  | cons file rest ih =>
      rw [ofFiles_cons] at member
      rcases List.mem_cons.mp member with rfl | later
      · exact ⟨file, List.mem_cons_self, rfl⟩
      · obtain ⟨other, left, values⟩ := ih later
        exact ⟨other, List.mem_cons_of_mem file (List.mem_filter.mp left).1, values⟩

/-- The groups after the first have other values. -/
theorem apart_of_mem_ofFiles
    (later : group ∈ ofFiles (rest.filter fun other => !shares values other))
    : same values group.partitionValues = false := by
  obtain ⟨other, left, isValues⟩ := exists_of_mem_ofFiles later
  rw [← isValues]
  simpa [shares] using (List.mem_filter.mp left).2

/-- A group has the values of its first file, and it has all files with these values, in order. -/
theorem files_of_mem_ofFiles (member : group ∈ ofFiles files)
    : group.files.head?.map (·.partitionValues) = some group.partitionValues
      ∧ group.files = files.filter (shares group.partitionValues) := by
  induction files using group_induction with
  | nil => cases member
  | cons file rest ih =>
      rw [ofFiles_cons] at member
      rcases List.mem_cons.mp member with rfl | later
      · exact ⟨rfl, by simp [shares, same_refl]⟩
      · obtain ⟨begins, files⟩ := ih later
        have apart := apart_of_mem_ofFiles later
        have notShared : ¬shares group.partitionValues file = true := fun shared =>
          absurd (same_symm shared) (Bool.eq_false_iff.mp apart)
        refine ⟨begins, ?_⟩
        calc
          group.files
            = rest.filter fun other =>
                shares group.partitionValues other && !shares file.partitionValues other := by
              rw [files, List.filter_filter]
          _ = rest.filter (shares group.partitionValues) := by
              refine List.filter_congr fun other _ => ?_
              cases shared : shares group.partitionValues other with
              | false => rfl
              | true => exact not_shares_of_apart apart shared
          _ = (file :: rest).filter (shares group.partitionValues) :=
              (List.filter_cons_of_neg notShared).symm

/-- Grouping neither loses files nor makes new ones. -/
theorem flatMap_files_ofFiles (files : List DataFile)
    : ((ofFiles files).flatMap (·.files)).Perm files := by
  induction files using group_induction with
  | nil => exact List.Perm.refl _
  | cons file rest ih =>
      rw [ofFiles_cons, List.flatMap_cons, List.cons_append]
      exact ((ih.append_left _).trans (List.filter_append_perm _ rest)).cons file

/-- The groups have different values. -/
theorem ofFiles_pairwise (files : List DataFile)
    : (ofFiles files).Pairwise fun a b => same a.partitionValues b.partitionValues = false := by
  induction files using group_induction with
  | nil => exact List.Pairwise.nil
  | cons file rest ih =>
      rw [ofFiles_cons]
      exact List.pairwise_cons.mpr ⟨fun group => apart_of_mem_ofFiles, ih⟩

-----------------------------------------------------------------------------------------
-- First occurrences
-----------------------------------------------------------------------------------------

/-- Of two kinds of items that a filter keeps, the one that comes first comes first without it. -/
theorem findIdx_lt_of_filter {α : Type} {keep p q : α → Bool}
    (keepsP : ∀ a, p a = true → keep a = true) (keepsQ : ∀ a, q a = true → keep a = true)
    {items : List α} (h : (items.filter keep).findIdx p < (items.filter keep).findIdx q)
    : items.findIdx p < items.findIdx q := by
  induction items with
  | nil => cases h
  | cons a rest ih =>
      rw [List.findIdx_cons, List.findIdx_cons]
      by_cases kept : keep a = true
      · rw [List.filter_cons_of_pos kept, List.findIdx_cons, List.findIdx_cons] at h
        cases isP : p a <;> cases isQ : q a <;> simp only [isP, isQ, cond_true, cond_false] at h ⊢
        · have := ih (by omega)
          omega
        · omega
        · omega
        · omega
      · rw [List.filter_cons_of_neg kept] at h
        have notP : p a = false := Bool.eq_false_iff.mpr (mt (keepsP a) kept)
        have notQ : q a = false := Bool.eq_false_iff.mpr (mt (keepsQ a) kept)
        have := ih h
        simp only [notP, notQ, cond_false]
        omega

/-- The groups come in the order in which their values first occur. -/
theorem ofFiles_ordered (files : List DataFile)
    : (ofFiles files).Pairwise fun a b =>
        files.findIdx (shares a.partitionValues) < files.findIdx (shares b.partitionValues) := by
  induction files using group_induction with
  | nil => exact List.Pairwise.nil
  | cons file rest ih =>
      rw [ofFiles_cons]
      refine List.pairwise_cons.mpr ⟨fun group later => ?_, ?_⟩
      · have notShared : shares group.partitionValues file = false := by
          refine Bool.eq_false_iff.mpr fun shared => ?_
          exact absurd (same_symm shared) (Bool.eq_false_iff.mp (apart_of_mem_ofFiles later))
        simp [List.findIdx_cons, shares_self, notShared]
      · have left
            : (file :: rest).filter (fun other => !shares file.partitionValues other)
              = rest.filter fun other => !shares file.partitionValues other :=
          List.filter_cons_of_neg (by simp [shares_self])
        refine ih.imp_of_mem fun isA isB first => ?_
        rw [← left] at first
        exact findIdx_lt_of_filter
          (fun _ => not_shares_of_apart (apart_of_mem_ofFiles isA))
          (fun _ => not_shares_of_apart (apart_of_mem_ofFiles isB)) first

-----------------------------------------------------------------------------------------
-- Grouping what is grouped
-----------------------------------------------------------------------------------------

/-- (IsGroup group) says that a group has the values of its first file, and that all its files have.
-/
structure IsGroup (group : FileGroup) : Prop where
  begins : group.files.head?.map (·.partitionValues) = some group.partitionValues
  shared : ∀ file ∈ group.files, shares group.partitionValues file = true

/-- Each group that is made has files that share its values, and no others. -/
theorem isGroup_of_mem_ofFiles (member : group ∈ ofFiles files)
    : group.IsGroup := by
  obtain ⟨begins, isFiles⟩ := files_of_mem_ofFiles member
  refine ⟨begins, fun file there => ?_⟩
  rw [isFiles] at there
  exact (List.mem_filter.mp there).2

/-- The files of groups with different values are grouped into these groups. -/
theorem ofFiles_flatMap_files {groups : List FileGroup}
    (areGroups : ∀ group ∈ groups, group.IsGroup)
    (apart : groups.Pairwise fun a b => same a.partitionValues b.partitionValues = false)
    : ofFiles (groups.flatMap (·.files)) = groups := by
  induction groups with
  | nil => rfl
  | cons group later ih =>
      obtain ⟨apartLater, apartRest⟩ := List.pairwise_cons.mp apart
      have isGroup := areGroups group List.mem_cons_self
      have areLater := fun other member => areGroups other (List.mem_cons_of_mem group member)
      obtain ⟨values, files⟩ := group
      obtain ⟨first, isFirst, rfl⟩ := Option.map_eq_some_iff.mp isGroup.begins
      obtain ⟨rest, rfl⟩ := List.head?_eq_some_iff.mp isFirst
      have taken : ∀ file ∈ rest, shares first.partitionValues file = true := fun file there =>
        isGroup.shared file (List.mem_cons_of_mem first there)
      have left
          : ∀ file ∈ later.flatMap (·.files), (!shares first.partitionValues file) = true := by
        intro file there
        obtain ⟨other, member, inOther⟩ := List.mem_flatMap.mp there
        exact not_shares_of_apart (apartLater other member)
          ((areLater other member).shared file inOther)
      have notTaken : ∀ file ∈ later.flatMap (·.files), ¬shares first.partitionValues file = true :=
        fun file there => by simpa using left file there
      have notLeft : ∀ file ∈ rest, ¬(!shares first.partitionValues file) = true :=
        fun file there => by simpa using taken file there
      rw [List.flatMap_cons, List.cons_append, ofFiles_cons, List.filter_append, List.filter_append,
        List.filter_eq_self.mpr taken, List.filter_eq_nil_iff.mpr notTaken,
        List.filter_eq_nil_iff.mpr notLeft, List.filter_eq_self.mpr left, List.append_nil,
        List.nil_append, ih areLater apartRest]

-----------------------------------------------------------------------------------------
-- Files that stand together
-----------------------------------------------------------------------------------------

/-- (Together files) says that files with the same partition values stand together: between two of
them there are only files with these values.
-/
def Together (files : List DataFile) : Prop :=
  ∀ a b c, [a, b, c].Sublist files → a.partitionValues.SameMap c.partitionValues
    → a.partitionValues.SameMap b.partitionValues

/-- (AreMaps files) says that no partition values of files have a column twice. -/
def AreMaps (files : List DataFile) : Prop :=
  ∀ file ∈ files, (keys file.partitionValues).Nodup

/-- Files stay maps when some are left out. -/
theorem AreMaps.sublist {others : List DataFile} (maps : AreMaps files)
    (part : others.Sublist files)
    : AreMaps others :=
  fun file member => maps file (part.mem member)

/-- Files share a group if their values are the same as maps. -/
theorem AreMaps.shares_iff (maps : AreMaps files) (isFile : file ∈ files) (isOther : other ∈ files)
    : shares file.partitionValues other = true
      ↔ file.partitionValues.SameMap other.partitionValues :=
  same_iff_sameMap (maps file isFile) (maps other isOther)

/-- Files stand together if files with the same values as the first come before all others. -/
theorem filter_append_filter_of_together {p : DataFile → Bool}
    (first : ∀ b c, [b, c].Sublist files → p c = true → p b = true)
    : files.filter p ++ files.filter (fun file => !p file) = files := by
  induction files with
  | nil => rfl
  | cons file rest ih =>
      by_cases kept : p file = true
      · rw [List.filter_cons_of_pos kept, List.filter_cons_of_neg (by simpa using kept),
          List.cons_append, ih fun b c part => first b c (part.cons file)]
      · have none : ∀ other ∈ rest, ¬p other = true := fun other member later =>
          kept (first file other ((List.singleton_sublist.mpr member).cons_cons file) later)
        have all : ∀ other ∈ rest, (!p other) = true := fun other member => by
          simpa using none other member
        rw [List.filter_cons_of_neg kept, List.filter_eq_nil_iff.mpr none, List.nil_append,
          List.filter_cons_of_pos (by simpa using kept), List.filter_eq_self.mpr all]

/-- Grouping leaves files as they are if they stand together. -/
theorem flatMap_files_of_together (maps : AreMaps files) (together : Together files)
    : (ofFiles files).flatMap (·.files) = files := by
  induction files using group_induction with
  | nil => rfl
  | cons file rest ih =>
      have part
          : (rest.filter fun other => !shares file.partitionValues other).Sublist (file :: rest) :=
        List.filter_sublist.trans (List.sublist_cons_self file rest)
      have first : ∀ b c, [b, c].Sublist rest → shares file.partitionValues c = true
          → shares file.partitionValues b = true := by
        intro b c both shared
        have inFiles := both.cons_cons file
        have isB : b ∈ file :: rest := inFiles.mem (by simp)
        have isC : c ∈ file :: rest := inFiles.mem (by simp)
        rw [maps.shares_iff List.mem_cons_self isB]
        exact together file b c inFiles ((maps.shares_iff List.mem_cons_self isC).mp shared)
      rw [ofFiles_cons, List.flatMap_cons, ih (maps.sublist part), List.cons_append,
        filter_append_filter_of_together first]
      exact fun a b c inPart => together a b c (inPart.trans part)

/-- The files of groups with different values stand together. -/
theorem together_flatMap_files {groups : List FileGroup}
    (areGroups : ∀ group ∈ groups, group.IsGroup)
    (apart : groups.Pairwise fun a b => same a.partitionValues b.partitionValues = false)
    (a b c : DataFile) (part : [a, b, c].Sublist (groups.flatMap (·.files)))
    (shared : shares a.partitionValues c = true)
    : shares a.partitionValues b = true := by
  induction groups with
  | nil => cases part
  | cons group later ih =>
      obtain ⟨apartLater, apartRest⟩ := List.pairwise_cons.mp apart
      have isGroup := areGroups group List.mem_cons_self
      have areLater := fun other member => areGroups other (List.mem_cons_of_mem group member)
      obtain ⟨inGroup, inLater, split, here, there⟩ := List.sublist_append_iff.mp part
      match inGroup with
      | [] =>
          obtain rfl : [a, b, c] = inLater := split
          exact ih areLater apartRest there
      | [x] =>
          -- the third file has the values of a later group, and the first those of this one
          obtain ⟨rfl, rfl⟩ := List.cons.inj split
          obtain ⟨other, member, inOther⟩ := List.mem_flatMap.mp (there.mem (by simp : c ∈ [b, c]))
          have notShared := not_shares_of_apart (apartLater other member)
            ((areLater other member).shared c inOther)
          rw [shares, same_congr (isGroup.shared a (List.singleton_sublist.mp here)), ← shares,
            shared] at notShared
          cases notShared
      | x :: y :: more =>
          obtain ⟨rfl, rest⟩ := List.cons.inj split
          obtain ⟨rfl, -⟩ := List.cons.inj rest
          have isA := isGroup.shared a (here.mem (by simp))
          exact same_trans (same_symm isA) (isGroup.shared b (here.mem (by simp)))

/-- Grouping leaves files as they are exactly if they stand together. -/
theorem flatMap_files_eq_iff (maps : AreMaps files)
    : (ofFiles files).flatMap (·.files) = files ↔ Together files := by
  constructor
  · intro same a b c part
    have isA : a ∈ files := part.mem (by simp)
    have isB : b ∈ files := part.mem (by simp)
    have isC : c ∈ files := part.mem (by simp)
    rw [← maps.shares_iff isA isB, ← maps.shares_iff isA isC]
    rw [← same] at part
    exact together_flatMap_files (fun _ => isGroup_of_mem_ofFiles) (ofFiles_pairwise files) a b c
      part
  · exact flatMap_files_of_together maps

-----------------------------------------------------------------------------------------
-- Groups as a partition
-----------------------------------------------------------------------------------------

/-- (IsPartition files groups) says that groups part files by their partition values: a group
has exactly the files with its values, in their order, and groups come in the order in which
their values first occur. No two values are compared on the way, of which one may be null.
-/
structure IsPartition (files : List DataFile) (groups : List FileGroup) : Prop where
  comparable
    : ∀ file ∈ files, ∀ x ∈ file.partitionValues, ∀ y ∈ file.partitionValues,
        inOrder? x y = some (Order.texts x.1 y.1)
  nonempty : ∀ group ∈ groups, group.files ≠ []
  distinct : groups.Pairwise fun a b => ¬a.partitionValues.SameMap b.partitionValues
  members
    : ∀ group ∈ groups,
        group.files = files.filter fun file => group.partitionValues.SameMap file.partitionValues
  ordered
    : groups.Pairwise fun a b =>
        files.findIdx (fun file => a.partitionValues.SameMap file.partitionValues)
          < files.findIdx (fun file => b.partitionValues.SameMap file.partitionValues)
  perm : (groups.flatMap (·.files)).Perm files
  regrouped : ofFiles (groups.flatMap (·.files)) = groups

/-- The first place where a test holds depends on the values of the test alone. -/
theorem findIdx_congr {α : Type} {p q : α → Bool} {items : List α} (same : ∀ a ∈ items, p a = q a)
    : items.findIdx p = items.findIdx q := by
  induction items with
  | nil => rfl
  | cons a rest ih =>
      rw [List.findIdx_cons, List.findIdx_cons, same a List.mem_cons_self,
        ih fun b member => same b (List.mem_cons_of_mem a member)]

/-- The files with the values of a group are those whose values are the same map. -/
theorem AreMaps.shares_eq (maps : AreMaps files) (member : group ∈ ofFiles files)
    (isFile : file ∈ files)
    : shares group.partitionValues file
      = decide (group.partitionValues.SameMap file.partitionValues) := by
  obtain ⟨other, isOther, values⟩ := exists_of_mem_ofFiles member
  rw [← values]
  exact Bool.eq_iff_iff.mpr ((maps.shares_iff isOther isFile).trans decide_eq_true_iff.symm)

/-- Files are grouped into a partition by their values, where a column has one value in each
file.
-/
theorem ofFiles_isPartition (maps : AreMaps files)
    : IsPartition files (ofFiles files) where
  comparable file isFile x isX y isY := inOrder?_eq (maps file isFile) isX isY
  nonempty group member none := by
    have begins := (files_of_mem_ofFiles member).1
    rw [none] at begins
    cases begins
  distinct := by
    refine (ofFiles_pairwise files).imp_of_mem fun {a b} isA isB apart sameMap => ?_
    obtain ⟨file, isFile, values⟩ := exists_of_mem_ofFiles isB
    have shared := maps.shares_eq isA isFile
    rw [shares, values, apart] at shared
    exact of_decide_eq_false shared.symm sameMap
  members group member := by
    refine (files_of_mem_ofFiles member).2.trans ?_
    exact List.filter_congr fun file isFile => maps.shares_eq member isFile
  ordered := by
    refine (ofFiles_ordered files).imp_of_mem fun isA isB first => ?_
    rwa [findIdx_congr fun file isFile => maps.shares_eq isA isFile,
      findIdx_congr fun file isFile => maps.shares_eq isB isFile] at first
  perm := flatMap_files_ofFiles files
  regrouped := ofFiles_flatMap_files (fun _ => isGroup_of_mem_ofFiles) (ofFiles_pairwise files)

def sampleFile (path : String) (values : PartitionValues) : DataFile :=
  { physicalPath := path, partitionValues := values }

/-- Files with null, with the empty text, without a column, with columns in another order, and twice
the same.
-/
def sampleFiles : List DataFile :=
  [sampleFile "a" [("p", none), ("q", some "1")],
    sampleFile "b" [("p", some ""), ("q", some "1")],
    sampleFile "c" [("q", some "1"), ("p", none)],
    sampleFile "d" [("q", some "1")],
    sampleFile "b" [("p", some ""), ("q", some "1")]]

theorem ofFiles_isPartition_sampleFiles
    : AreMaps sampleFiles
      ∧ (ofFiles sampleFiles).map (fun group => group.files.map (·.physicalPath))
        = [["a", "c"], ["b", "b"], ["d"]]
      ∧ IsPartition sampleFiles (ofFiles sampleFiles) := by
  have maps : ∀ file ∈ sampleFiles, (keys file.partitionValues).Nodup := by
    decide
  exact ⟨maps, by decide +kernel, ofFiles_isPartition maps⟩

end FileGroup

end DeltaFeed
