import DeltaFeed.Proofs.Log.ReadingBack

/-! Which listings come grouped by partition. A listing is in the order of all partition values
of its files, where null counts as the empty text, but its groups are told by the columns of the
table, where null is apart. The two go together for some kinds of partition values and not for
others: a listing of files of a kind has its partitions in one piece exactly if no three values
of the kind are in an order that parts two with the same columns.
-/

namespace DeltaFeed

-----------------------------------------------------------------------------------------
-- The order of partition values
-----------------------------------------------------------------------------------------

namespace PartitionValues

variable {a b values : PartitionValues} {columns : List String}

/-- (shown values) is what files are listed by before their path: their partition values in the
order of the columns, with the empty text for null.
-/
def shown (values : PartitionValues) : List (String × String) :=
  Order.sort (Order.pairs Order.texts Order.texts)
    (values.map fun (column, value) => (column, value.getD ""))

/-- (NotAfter a b) says that files with partition values a are listed before those with b, or that
only their paths tell which of them come first.
-/
def NotAfter (a b : PartitionValues) : Prop :=
  Order.lists (Order.pairs Order.texts Order.texts) (shown a) (shown b) = true

instance (a b : PartitionValues) : Decidable (NotAfter a b) :=
  inferInstanceAs (Decidable (_ = true))

/-- (Agree columns a b) says that some columns have the same values in a and b, where a column
without a value has null.
-/
def Agree (columns : List String) (a b : PartitionValues) : Prop :=
  ∀ column ∈ columns, (a.lookup column).join = (b.lookup column).join

instance (columns : List String) (a b : PartitionValues) : Decidable (Agree columns a b) :=
  inferInstanceAs (Decidable (∀ column ∈ columns, _))

theorem shown_linear
    : Order.Linear (Order.lists (Order.pairs Order.texts Order.texts)) :=
  Order.lists_linear (Order.pairs_linear Order.texts_linear Order.texts_linear)

/-- The same entries are shown the same, in whatever order they are. -/
theorem shown_eq_iff
    : shown a = shown b
      ↔ (a.map fun (column, value) => (column, value.getD "")).Perm
          (b.map fun (column, value) => (column, value.getD "")) := by
  have linear := Order.pairs_linear Order.texts_linear Order.texts_linear
  have ordered (values : PartitionValues)
      : (shown values).Pairwise fun x y => Order.pairs Order.texts Order.texts x y = true :=
    Order.sort_pairwise linear.total linear.trans _
  constructor
  · intro same
    exact (Order.sort_perm _).symm.trans ((List.Perm.of_eq same).trans (Order.sort_perm _))
  · intro perm
    exact List.Perm.eq_of_pairwise (fun _ _ _ _ => linear.antisymm) (ordered a) (ordered b)
      ((Order.sort_perm _).trans (perm.trans (Order.sort_perm _).symm))

/-- Restricting values to some columns keeps each column once. -/
theorem nodup_keys_restrict (values : PartitionValues) (columns : List String)
    : (keys (restrict values columns)).Nodup := by
  have none : (keys ([] : PartitionValues)).Nodup := List.nodup_nil
  exact nodup_keys_foldl_put none columns

/-- The columns of a table have their values, or else null, and there are no other columns. -/
theorem lookup_restrict (values : PartitionValues) (columns : List String) (column : String)
    : (restrict values columns).lookup column
      = if column ∈ columns then some (values.lookup column).join else none := by
  rw [restrict, pick, lookup_foldl_put, List.lookup_nil, Option.or_none]
  split
  case isTrue named =>
    cases last : (columns.filter fun other => decide (other = column)).getLast? with
    | none =>
        rw [List.getLast?_eq_none_iff, List.filter_eq_nil_iff] at last
        exact absurd (decide_eq_true rfl) (last column named)
    | some other =>
        have same := (List.mem_filter.mp (List.mem_of_getLast? last)).2
        obtain rfl : other = column := of_decide_eq_true same
        rw [Option.map_some]
        cases values.lookup other <;> rfl
  case isFalse unnamed =>
    have none : columns.filter (fun other => decide (other = column)) = [] := by
      refine List.filter_eq_nil_iff.mpr fun other member same => unnamed ?_
      rwa [← of_decide_eq_true same]
    rw [none]
    rfl

/-- The values of the columns of a table are the same map if these columns agree. -/
theorem restrict_sameMap_iff
    : SameMap (restrict a columns) (restrict b columns) ↔ Agree columns a b := by
  constructor
  · intro same column named
    have there : column ∈ keys (restrict a columns) := by
      refine Decidable.byContradiction fun absent => ?_
      have := lookup_eq_none_of_not_mem_keys absent
      rw [lookup_restrict, if_pos named] at this
      cases this
    have found := same column (List.mem_append_left _ there)
    rw [lookup_restrict, lookup_restrict, if_pos named, if_pos named] at found
    exact Option.some.inj found
  · intro agree column _
    rw [lookup_restrict, lookup_restrict]
    split
    case isTrue named => rw [agree column named]
    case isFalse => rfl

-----------------------------------------------------------------------------------------
-- Kinds of partition values
-----------------------------------------------------------------------------------------

/-- (KeepsTogether columns kind) says that the order of partition values of a kind never parts two
that agree on some columns: what comes between them agrees with them.
-/
def KeepsTogether (columns : List String) (kind : PartitionValues → Prop) : Prop :=
  ∀ a b c, kind a → kind b → kind c → NotAfter a b → NotAfter b c
    → Agree columns a c
    → Agree columns a b

/-- (Fills columns values) says that partition values are of some columns and no others. -/
structure Fills (columns : List String) (values : PartitionValues) : Prop where
  distinct : (keys values).Nodup
  filled : ∀ column, column ∈ keys values ↔ column ∈ columns

/-- (IsWritten values) says that no value is the empty text, which a log writes as null. -/
def IsWritten (values : PartitionValues) : Prop :=
  ∀ entry ∈ values, entry.2 ≠ some ""

/-- Values that fill some columns have an entry for each. -/
theorem Fills.exists_entry (h : Fills columns values) {column : String} (named : column ∈ columns)
    : ∃ value, (column, value) ∈ values ∧ values.lookup column = some value := by
  obtain ⟨⟨_, value⟩, isEntry, rfl⟩ := List.mem_map.mp ((h.filled column).mpr named)
  exact ⟨value, isEntry, (mem_iff_lookup h.distinct).mp isEntry⟩

/-- Values that fill the same columns are the same entries if they agree on them. -/
theorem Fills.perm_of_agree (isA : Fills columns a) (isB : Fills columns b)
    (agree : Agree columns a b)
    : a.Perm b := by
  refine perm_of_lookup_eq isA.distinct isB.distinct fun column => ?_
  by_cases named : column ∈ columns
  · obtain ⟨s, _, foundA⟩ := isA.exists_entry named
    obtain ⟨t, _, foundB⟩ := isB.exists_entry named
    have same := agree column named
    rw [foundA, foundB] at same
    obtain rfl : s = t := same
    rw [foundA, foundB]
  · rw [lookup_eq_none_of_not_mem_keys (mt (isA.filled column).mp named),
      lookup_eq_none_of_not_mem_keys (mt (isB.filled column).mp named)]

/-- Values that are no empty texts are told apart by the texts that are shown for them. -/
theorem getD_inj {s t : Option String} (isText : s ≠ some "") (isTextToo : t ≠ some "")
    (same : s.getD "" = t.getD "")
    : s = t := by
  cases s <;> cases t <;> simp_all

/-- Values that fill the columns of a table are kept together exactly if no two of them are
shown the same, of which one has null where the other has the empty text.
-/
theorem keepsTogether_iff_of_fills {kind : PartitionValues → Prop}
    (fills : ∀ values, kind values → Fills columns values)
    : KeepsTogether columns kind
      ↔ ∀ a b, kind a → kind b → shown a = shown b → Agree columns a b := by
  constructor
  · intro keeps a b isA isB same
    have before : NotAfter a b := by
      rw [NotAfter, same]
      exact shown_linear.refl _
    have after : NotAfter b a := by
      rw [NotAfter, same]
      exact shown_linear.refl _
    exact keeps a b a isA isB isA before after fun _ _ => rfl
  · intro apart a b c isA isB isC first second agree
    -- the outer two are the same entries, so that the order leaves no room between them
    have perm : a.Perm c := (fills a isA).perm_of_agree (fills c isC) agree
    have same : shown a = shown c := shown_eq_iff.mpr (perm.map _)
    rw [NotAfter, ← same] at second
    exact apart a b isA isB (shown_linear.antisymm first second)

/-- Written values that fill the same columns agree on them if they are shown the same. -/
theorem Fills.agree_of_shown_eq (isA : Fills columns a) (isB : Fills columns b)
    (writtenA : IsWritten a) (writtenB : IsWritten b) (same : shown a = shown b)
    : Agree columns a b := by
  intro column named
  obtain ⟨s, isEntry, foundA⟩ := isA.exists_entry named
  have shownA := List.mem_map_of_mem (f := fun (column, value) => (column, value.getD "")) isEntry
  obtain ⟨⟨_, t⟩, inB, entry⟩ := List.mem_map.mp ((shown_eq_iff.mp same).mem_iff.mp shownA)
  obtain ⟨rfl, texts⟩ := Prod.mk.inj entry
  obtain rfl : t = s := getD_inj (writtenB _ inB) (writtenA _ isEntry) texts
  rw [foundA, (mem_iff_lookup isB.distinct).mp inB]

/-- Written values that fill the columns of a table are kept together. -/
theorem keepsTogether_written (columns : List String)
    : KeepsTogether columns fun values => Fills columns values ∧ IsWritten values := by
  refine (keepsTogether_iff_of_fills fun _ isKind => isKind.1).mpr ?_
  intro a b isA isB same
  exact isA.1.agree_of_shown_eq isB.1 isA.2 isB.2 same

/-- Values that have more columns than the table are parted by the order of the others. -/
example
    : NotAfter [("a", some "1"), ("p", some "x")] [("a", some "2"), ("p", some "y")]
      ∧ NotAfter [("a", some "2"), ("p", some "y")] [("a", some "3"), ("p", some "x")]
      ∧ Agree ["p"] [("a", some "1"), ("p", some "x")] [("a", some "3"), ("p", some "x")]
      ∧ ¬Agree ["p"] [("a", some "1"), ("p", some "x")] [("a", some "2"), ("p", some "y")] := by
  decide

end PartitionValues

namespace Log

open PartitionValues FileGroup
open Store (Tree Path)

variable {x y : AddFile} {columns : List String} {kind : PartitionValues → Prop}
  {a b c : PartitionValues}

-----------------------------------------------------------------------------------------
-- Listings of a kind
-----------------------------------------------------------------------------------------

namespace LiveFiles

/-- The order of added files is that of what is shown of their values, and then of their paths. -/
theorem comesFirst_eq (x y : AddFile)
    : comesFirst x y
      = Order.pairs (Order.lists (Order.pairs Order.texts Order.texts)) Order.texts
          (shown x.partitionValues, x.path) (shown y.partitionValues, y.path) :=
  rfl

/-- Files are listed in the order of their values. -/
theorem notAfter_of_comesFirst (h : comesFirst x y = true)
    : NotAfter x.partitionValues y.partitionValues := by
  rw [comesFirst_eq, Order.pairs] at h
  rw [NotAfter]
  split at h
  case isTrue same =>
    obtain same : shown x.partitionValues = shown y.partitionValues := same
    rw [same]
    exact shown_linear.refl _
  case isFalse => exact h

/-- Files are listed by path where their values are no obstacle. -/
theorem comesFirst_of_notAfter (values : NotAfter x.partitionValues y.partitionValues)
    (paths : Order.texts x.path y.path = true)
    : comesFirst x y = true := by
  rw [comesFirst_eq, Order.pairs]
  split
  case isTrue => exact paths
  case isFalse => exact values

end LiveFiles

/-- A listing in order has its files together if their kind is kept together. -/
theorem together_of_keepsTogether (context : FileContext) {adds : List AddFile}
    (keeps : KeepsTogether context.partitionFields kind)
    (kinds : ∀ file ∈ adds, kind file.partitionValues)
    (ordered : adds.Pairwise fun x y => LiveFiles.comesFirst x y = true)
    : Together (adds.map (DataFile.ofAdd context)) := by
  intro _ _ _ part shared
  obtain ⟨three, part, areMapped⟩ := List.sublist_map_iff.mp part
  obtain ⟨x, _, rfl, rfl, areRest⟩ := List.map_eq_cons_iff.mp areMapped.symm
  obtain ⟨y, _, rfl, rfl, areLast⟩ := List.map_eq_cons_iff.mp areRest
  obtain ⟨z, _, rfl, rfl, noMore⟩ := List.map_eq_cons_iff.mp areLast
  obtain rfl := List.map_eq_nil_iff.mp noMore
  have sorted := ordered.sublist part
  have first : LiveFiles.comesFirst x y = true := List.rel_of_pairwise_cons sorted (by simp)
  have second : LiveFiles.comesFirst y z = true :=
    List.rel_of_pairwise_cons sorted.of_cons (by simp)
  have agree : Agree context.partitionFields x.partitionValues y.partitionValues :=
    keeps _ _ _ (kinds x (part.mem (by simp))) (kinds y (part.mem (by simp)))
      (kinds z (part.mem (by simp))) (LiveFiles.notAfter_of_comesFirst first)
      (LiveFiles.notAfter_of_comesFirst second) (restrict_sameMap_iff.mp shared)
  exact restrict_sameMap_iff.mpr agree

/-- The values of data files are maps, since they are restricted to the columns of the table. -/
theorem areMaps_ofAdd (context : FileContext) (adds : List AddFile)
    : AreMaps (adds.map (DataFile.ofAdd context)) := by
  intro _ member
  obtain ⟨file, _, rfl⟩ := List.mem_map.mp member
  exact nodup_keys_restrict file.partitionValues context.partitionFields

/-- (ListsTogether columns kind) says that wherever the files that a log added till a version
are of a kind, the listing of a table with some partition columns at that version has its files
together, so that grouping it and flattening the groups gives it back.
-/
def ListsTogether (columns : List String) (kind : PartitionValues → Prop) : Prop :=
  ∀ settings base tree log (acts : Nat → List Action) (n v : Nat) (table : Table),
    Follows settings base tree log
    → Contiguous tree (.ofBase settings base) n
    → v ≤ n
    → (∀ u ≤ v, actionsAt tree (.ofBase settings base) u = .ok (acts u))
    → (∀ u ≤ v, ∀ file, .add file ∈ acts u → kind file.partitionValues)
    → table.partitionFields = columns
    → ∃ files,
        ((CommitLog.files tree v table).run log).result = .ok files
        ∧ Together files
        ∧ (ofFiles files).flatMap (·.files) = files

/-- Where only equal values lie between equal ones, the files of a group are listed together. -/
theorem listsTogether_of_keepsTogether (keeps : KeepsTogether columns kind)
    : ListsTogether columns kind := by
  rintro settings base tree log acts n v table follows contiguous past valid kinds rfl
  obtain ⟨gone, below, history, agrees, _⟩ := follows
  have listed := listsLive_inOrder base.text acts v
  have isOfKind (file : AddFile) (member : file ∈ (replayedTo base.text acts v).inOrder)
      : kind file.partitionValues := by
    obtain ⟨u, upTo, added⟩ := listed.exists_added member
    exact kinds u upTo file added
  have together
      : Together
          ((replayedTo base.text acts v).inOrder.map (DataFile.ofAdd table.fileContext)) :=
    together_of_keepsTogether table.fileContext keeps isOfKind listed.ordered
  refine ⟨_, ?_, together, (flatMap_files_eq_iff (areMaps_ofAdd _ _)).mpr together⟩
  exact (CommitLog.files_yields_upTo below.apart contiguous valid past table agrees).result_eq

-----------------------------------------------------------------------------------------
-- Logs of three files
-----------------------------------------------------------------------------------------

/-- (adding path values) states that a file with some partition values is added. -/
def adding (path : String) (values : PartitionValues) : AddStatement where
  path := path
  partitionValues := some values
  size := 0
  numRecords := none
  modificationTime := 0
  vector := none

theorem valid_adding (path : String) {values : PartitionValues} (isMap : (keys values).Nodup)
    : (adding path values).Valid where
  columns := by
    rintro _ ⟨⟩
    exact isMap
  size := (by decide : InRange 0)
  numRecords := nofun
  modificationTime := (by decide : InRange 0)
  vector := nofun

/-- (addingThree a b c) commits three files with some partition values. -/
def addingThree (a b c : PartitionValues) : CommitCall where
  statements := [.add (adding "/1" a), .add (adding "/2" b), .add (adding "/3" c)]
  millis := 0
  operation := "WRITE"

def threeFiles (a b c : PartitionValues) : List AddFile :=
  [(adding "/1" a).file, (adding "/2" b).file, (adding "/3" c).file]

/-- Three files can be committed. -/
theorem exists_log_of_three (isA : (keys a).Nodup) (isB : (keys b).Nodup) (isC : (keys c).Nodup)
    : ∃ tree,
        Contiguous tree topPlace 0
        ∧ ∀ u ≤ 0, actionsAt tree topPlace (u : Nat) = .ok ((threeFiles a b c).map .add) := by
  have started
      : ((LogWriter.start {} topPlace.base).run {}).result = .ok { place := topPlace } := by
    decide +kernel
  have plain
      : ∀ name ∈ sampleStarted.names topPlace.directory, stem? topPlace.digits name = none := by
    decide +kernel
  have wrote : Wrote topPlace "parquet" _ [] (sampleStarted, { place := topPlace }) :=
    LogWriter.wrote_of_start ⟨[], rfl⟩ started plain
  have room : HasRoom topPlace (([] : List CommitCall).length + [addingThree a b c].length) :=
    hasRoom_sampleCalls.mono (Nat.le_succ 1)
  have valid : ∀ call ∈ [addingThree a b c], call.Valid := by
    intro call member
    obtain rfl := List.mem_singleton.mp member
    refine ⟨?_, (by decide : -9000000000000 ≤ (0 : Int) ∧ (0 : Int) ≤ 9000000000000)⟩
    simp only [addingThree, List.forall_mem_cons]
    exact ⟨valid_adding _ isA, valid_adding _ isB, valid_adding _ isC, nofun⟩
  have committed := (LogWriter.commitAll_yields wrote room valid).leaves
  have found : ([] ++ [addingThree a b c])[0]? = some (addingThree a b c) := rfl
  refine ⟨_, committed.contiguous room rfl, fun u upTo => ?_⟩
  obtain rfl := Nat.le_zero.mp upTo
  exact committed.actionsAt_eq room found

/-- An absolute path is not joined to a base. -/
theorem full_of_absolute {path : String} (absolute : Location.isAbsolute path.toList = true)
    (base : String)
    : Location.full base path = path := by
  rw [Location.full, Location.fullChars, if_pos absolute, String.ofList_toList]

/-- The key of an added file with an absolute path is that path. -/
theorem key_adding {path : String} (absolute : Location.isAbsolute path.toList = true)
    (base : String) (values : PartitionValues)
    : FileKey.of base (.add (adding path values).file) = { path, vectorReference := none } :=
  congrArg (FileKey.mk · none) (full_of_absolute absolute base)

/-- The listing of three files whose partition values are in order has them in that order. -/
theorem inOrder_threeFiles (first : NotAfter a b) (second : NotAfter b c) (base : String)
    : (replayedTo base (fun _ => (threeFiles a b c).map .add) 0).inOrder = threeFiles a b c := by
  have live
      : (replayedTo base (fun _ => (threeFiles a b c).map .add) 0).map (·.2)
        = threeFiles a b c := by
    -- the paths are absolute, so that no base makes two keys the same
    have one := key_adding (by decide : Location.isAbsolute "/1".toList = true) base a
    have two := key_adding (by decide : Location.isAbsolute "/2".toList = true) base b
    have three := key_adding (by decide : Location.isAbsolute "/3".toList = true) base c
    simp [replayedTo_zero, LiveFiles.replay, threeFiles, LiveFiles.drop, LiveFiles.take, put, one,
      two, three]
  have aFirst : LiveFiles.comesFirst (adding "/1" a).file (adding "/2" b).file = true :=
    LiveFiles.comesFirst_of_notAfter first (by decide : Order.texts "/1" "/2" = true)
  have bFirst : LiveFiles.comesFirst (adding "/2" b).file (adding "/3" c).file = true :=
    LiveFiles.comesFirst_of_notAfter second (by decide : Order.texts "/2" "/3" = true)
  rw [LiveFiles.inOrder, live, Order.sort_eq_insertionSort]
  refine List.Pairwise.insertionSort_eq ?_
  simp [threeFiles, aFirst, bFirst, LiveFiles.comesFirst_trans aFirst bFirst]

/-- The values of three files are of a kind if each of them is. -/
theorem kind_of_mem_threeFiles (isA : kind a) (isB : kind b) (isC : kind c) {file : AddFile}
    (member : Action.add file ∈ (threeFiles a b c).map Action.add)
    : kind file.partitionValues := by
  obtain ⟨_, isFile, same⟩ := List.mem_map.mp member
  obtain rfl := Action.add.inj same
  simp only [threeFiles, List.mem_cons, List.not_mem_nil, or_false] at isFile
  rcases isFile with rfl | rfl | rfl
  · exact isA
  · exact isB
  · exact isC

/-- A kind is kept together if its listings are: of three values that are not kept together there
is a log whose listing has a file of the one between two of the others.
-/
theorem keepsTogether_of_listsTogether (areMaps : ∀ values, kind values → (keys values).Nodup)
    (lists : ListsTogether columns kind)
    : KeepsTogether columns kind := by
  intro a b c isA isB isC first second agree
  obtain ⟨tree, contiguous, valid⟩ :=
    exists_log_of_three (areMaps a isA) (areMaps b isB) (areMaps c isC)
  let table : Table :=
    { name := "t", basePath := "t", version := 0, partitionFields := columns,
      latestCommitTime := .utc 0 }
  have follows := follows_ofBase {} topPlace.base tree
  obtain ⟨files, listed, together, _⟩ := lists {} topPlace.base tree _
    (fun _ => (threeFiles a b c).map .add) 0 0 table follows contiguous (Nat.le_refl 0) valid
    (fun _ _ _ => kind_of_mem_threeFiles isA isB isC) rfl
  obtain ⟨gone, below, history, agrees, _⟩ := follows
  have told := (CommitLog.files_yields_upTo below.apart contiguous valid (Nat.le_refl 0) table
    agrees).result_eq
  rw [inOrder_threeFiles first second] at told
  obtain rfl := Except.ok.inj (listed.symm.trans told)
  have parted := together _ _ _ (List.Sublist.refl _) (restrict_sameMap_iff.mpr agree)
  exact restrict_sameMap_iff.mp parted

/-- The listings of the files of a kind come grouped by partition, whatever the log and the version,
exactly if the order of the partition values of that kind keeps together those that agree on the
partition columns of the table.
-/
theorem lists_together_iff (areMaps : ∀ values, kind values → (keys values).Nodup)
    : ListsTogether columns kind ↔ KeepsTogether columns kind :=
  ⟨keepsTogether_of_listsTogether areMaps, listsTogether_of_keepsTogether⟩

/-- (addLine path value) is a line that adds a file with a value of column p. -/
def addLine (path value : String) : String :=
  r#"{"add":{"path":""# ++ path ++ r#"","partitionValues":{"p":"# ++ value ++ r"}}}" ++ "\n"

/-- (samplePartitions value) is a log of three files, of which the second has a value where the
others have null.
-/
def samplePartitions (value : String) : Tree :=
  storeOf (filesOf
    [(0, commitFile (addLine "a" "null" ++ addLine "b" value ++ addLine "c" "null") 1000)])

def samplePartitioned : Table :=
  { name := "t"
    basePath := "."
    version := 0
    partitionFields := ["p"]
    latestCommitTime := .utc 0 }

theorem fills_column {value : Option String} (isText : value ≠ some "")
    : Fills ["p"] [("p", value)] ∧ IsWritten [("p", value)] := by
  refine ⟨⟨by simp, fun column => by simp⟩, fun entry isEntry => ?_⟩
  obtain rfl := List.mem_singleton.mp isEntry
  exact isText

/-- Files with another value come together. -/
theorem lists_together_iff_samplePartitions
    : ∃ files,
        ((CommitLog.files (samplePartitions "\"1\"") 0 samplePartitioned).run
          (.ofBase {} topPlace.base)).result = .ok files
        ∧ Together files
        ∧ (ofFiles files).flatMap (·.files) = files := by
  have lists : ListsTogether ["p"] fun values => Fills ["p"] values ∧ IsWritten values :=
    (lists_together_iff fun _ isKind => isKind.1.distinct).mpr (keepsTogether_written ["p"])
  let acts : List Action :=
    [.add { path := "a", partitionValues := [("p", none)] },
      .add { path := "b", partitionValues := [("p", some "1")] },
      .add { path := "c", partitionValues := [("p", none)] }]
  have contiguous : Contiguous (samplePartitions "\"1\"") topPlace 0 := by
    unfold Contiguous
    decide +kernel
  have valid
      : ∀ u ≤ 0, actionsAt (samplePartitions "\"1\"") topPlace (u : Nat) = .ok acts := by
    decide +kernel
  have kinds (file : AddFile) (member : .add file ∈ acts)
      : Fills ["p"] file.partitionValues ∧ IsWritten file.partitionValues := by
    simp only [acts, List.mem_cons, Action.add.injEq, List.not_mem_nil, or_false] at member
    rcases member with rfl | rfl | rfl
    · exact fills_column nofun
    · exact fills_column (by decide)
    · exact fills_column nofun
  exact lists {} topPlace.base _ _ (fun _ => acts) 0 0 samplePartitioned (follows_ofBase _ _ _)
    contiguous (Nat.le_refl 0) valid (fun _ _ => kinds) rfl

/-- Files with the empty text come between files with null. -/
theorem parted_samplePartitions
    : Contiguous (samplePartitions "\"\"") topPlace 0
      ∧ ∃ files,
          ((CommitLog.files (samplePartitions "\"\"") 0 samplePartitioned).run
            (.ofBase {} topPlace.base)).result = .ok files
          ∧ files.map (·.partitionValues) = [[("p", none)], [("p", some "")], [("p", none)]]
          ∧ ¬Together files
          ∧ (ofFiles files).flatMap (·.files) ≠ files := by
  refine ⟨by unfold Contiguous; decide +kernel, ?_⟩
  refine ⟨[sampleFile "./a" [("p", none)], sampleFile "./b" [("p", some "")],
    sampleFile "./c" [("p", none)]], by decide +kernel, rfl, ?_, by decide +kernel⟩
  intro together
  have parted := together _ _ _ (List.Sublist.refl _) (by decide)
  exact absurd parted (by decide)

end Log

end DeltaFeed
