import DeltaFeed.Log.Files
import DeltaFeed.Proofs.Order

/-! The committed versions of a log as its directory shows them, and how they change: a log
grows at its end, and it is trimmed at its beginning. What is read of a version depends on its
file alone.
-/

namespace DeltaFeed.Log

open Store (Tree)

/-- (committed tree place) are the committed versions, and none where the log cannot be listed. -/
def committed (tree : Tree) (place : Place) : List Int :=
  (listVersions tree place).toOption.getD []

/-- The versions of a log are those that are listed. -/
theorem committed_of_listVersions {tree : Tree} {place : Place} {versions : List Int}
    (listed : listVersions tree place = .ok versions)
    : committed tree place = versions := by
  simp [committed, listed, Except.toOption]

/-- A log that cannot be listed has no versions. -/
theorem committed_of_error {tree : Tree} {place : Place} {failure : Failure}
    (listed : listVersions tree place = .error failure)
    : committed tree place = [] := by
  simp [committed, listed, Except.toOption]

/-- A log with a version can be listed. -/
theorem listVersions_of_mem_committed {tree : Tree} {place : Place} {v : Int}
    (member : v ∈ committed tree place)
    : listVersions tree place = .ok (committed tree place) := by
  cases listed : listVersions tree place with
  | ok all => rw [committed_of_listVersions listed]
  | error failure =>
      rw [committed_of_error listed] at member
      cases member

-----------------------------------------------------------------------------------------
-- What a listing looks like
-----------------------------------------------------------------------------------------

/-- Trimming adds no characters. -/
theorem mem_of_mem_trimBy {p : Char → Bool} {text : List Char} {c : Char}
    (member : c ∈ Text.trimBy p text)
    : c ∈ text := by
  have inner := (List.dropWhile_sublist p).mem (List.mem_reverse.mp member)
  exact (List.dropWhile_sublist p).mem (List.mem_reverse.mp inner)

/-- A numeral without a minus is not negative. -/
theorem read_nonneg {text : List Char} {n : Int} (plain : '-' ∉ text)
    (h : Integer.read text = .ok n)
    : 0 ≤ n := by
  have unsigned : (Text.splitSign (Text.trimBy Text.isWhite text)).1 = false := by
    unfold Text.splitSign
    split
    case h_1 rest found =>
      exact absurd (mem_of_mem_trimBy (found ▸ List.mem_cons_self)) plain
    case h_2 => rfl
    case h_3 => rfl
  unfold Integer.read at h
  dsimp only at h
  split at h
  · cases h
  · split at h
    case h_2 => cases h
    case h_1 value found =>
      cases h
      simp only [Text.readInteger, unsigned] at found
      obtain ⟨digits, _, rfl⟩ := Option.map_eq_some_iff.mp found
      exact Int.natCast_nonneg digits

/-- The part of a file name that writes a version has digits only. -/
theorem stem?_digits {digits : Nat} {name : String} {stem : List Char}
    (h : stem? digits name = some stem)
    : stem.all Text.isDigit = true := by
  unfold stem? at h
  dsimp only at h
  split at h
  case isTrue found =>
    cases h
    simp only [Bool.and_eq_true] at found
    exact found.1.1.2
  case isFalse => cases h

/-- Names of digits alone are read as versions that are not negative, by induction on the names. -/
theorem readAll_nonneg {stems : List (List Char)} {versions : List Int}
    (digits : ∀ stem ∈ stems, stem.all Text.isDigit = true)
    (h : readAll stems = .ok versions)
    : ∀ v ∈ versions, 0 ≤ v := by
  induction stems generalizing versions with
  | nil =>
      cases h
      simp
  | cons stem rest ih =>
      have notMinus : '-' ∉ stem := by
        intro member
        have isDigit := List.all_eq_true.mp (digits stem List.mem_cons_self) '-' member
        exact absurd isDigit (by decide)
      cases first : Integer.read stem with
      | error failure => simp [readAll, first, bind, Except.bind] at h
      | ok version =>
          cases others : readAll rest with
          | error failure => simp [readAll, first, others, bind, Except.bind] at h
          | ok more =>
              simp only [readAll, first, others, bind, Except.bind, pure, Except.pure,
                Except.ok.injEq] at h
              subst h
              intro v member
              rcases List.mem_cons.mp member with rfl | member
              · exact read_nonneg notMinus first
              · exact ih (fun stem hs => digits stem (List.mem_cons_of_mem _ hs)) others v member

/-- A listing is the sorted form of the versions that the names of the files write. -/
theorem versionsOf_eq_ok {place : Place} {names : List String} {versions : List Int}
    (h : versionsOf place names = .ok versions)
    : ∃ written,
        readAll (names.filterMap (stem? place.digits)) = .ok written
        ∧ written ≠ []
        ∧ versions = Order.sort (fun a b => decide (a ≤ b)) written := by
  unfold versionsOf at h
  cases all : readAll (names.filterMap (stem? place.digits)) with
  | error failure => simp [all, bind, Except.bind] at h
  | ok written =>
      refine ⟨written, rfl, ?_⟩
      cases written with
      | nil => simp [all, bind, Except.bind] at h
      | cons first rest =>
          simp only [all, bind, Except.bind, List.isEmpty_cons, Bool.false_eq_true, if_false,
            pure, Except.pure, Except.ok.injEq] at h
          exact ⟨List.cons_ne_nil _ _, h.symm⟩

theorem listVersions_eq_ok {tree : Tree} {place : Place} {versions : List Int}
    (h : listVersions tree place = .ok versions)
    : versionsOf place (tree.names place.directory) = .ok versions := by
  unfold listVersions at h
  split at h
  · exact h
  · cases h
  · cases h

/-- The failure of a listing without commits. -/
def noCommits (place : Place) : Failure :=
  let shown := place.directory.text
  .read .emptyLog s!"No commits found in {shown}" none

/-- A log without a commit cannot be listed. -/
theorem listVersions_ne_nil {tree : Tree} {place : Place} {versions : List Int}
    (h : listVersions tree place = .ok versions)
    : versions ≠ [] := by
  obtain ⟨written, _, nonempty, rfl⟩ := versionsOf_eq_ok (listVersions_eq_ok h)
  intro none
  exact nonempty (List.nil_perm.mp (none ▸ Order.sort_perm written))

/-- Versions are in order after they are sorted. -/
theorem sort_sorted (versions : List Int)
    : (Order.sort (fun a b => decide (a ≤ b)) versions).Pairwise (· ≤ ·) := by
  have sorted : (Order.sort (fun a b => decide (a ≤ b)) versions).Pairwise
      fun a b => decide (a ≤ b) = true :=
    Order.sort_pairwise (by simp; omega) (by simp; omega) versions
  simpa using sorted

/-- The committed versions are in order. -/
theorem committed_sorted (tree : Tree) (place : Place)
    : (committed tree place).Pairwise (· ≤ ·) := by
  cases listed : listVersions tree place with
  | error failure => simp [committed_of_error listed]
  | ok versions =>
      rw [committed_of_listVersions listed]
      obtain ⟨written, _, _, rfl⟩ := versionsOf_eq_ok (listVersions_eq_ok listed)
      exact sort_sorted written

/-- No version is negative. -/
theorem committed_nonneg {tree : Tree} {place : Place} {v : Int}
    (member : v ∈ committed tree place)
    : 0 ≤ v := by
  cases listed : listVersions tree place with
  | error failure => simp [committed_of_error listed] at member
  | ok versions =>
      rw [committed_of_listVersions listed] at member
      obtain ⟨written, all, _, rfl⟩ := versionsOf_eq_ok (listVersions_eq_ok listed)
      refine readAll_nonneg ?_ all v ((Order.sort_perm _).mem_iff.mp member)
      intro stem found
      obtain ⟨name, _, isStem⟩ := List.mem_filterMap.mp found
      exact stem?_digits isStem

/-- Sorted versions are those up to one of them, and then those beyond. -/
theorem filter_append_filter {versions : List Int} (sorted : versions.Pairwise (· ≤ ·)) (v : Int)
    : versions.filter (· ≤ v) ++ versions.filter (v < ·) = versions := by
  induction versions with
  | nil => rfl
  | cons u rest ih =>
      obtain ⟨from_, inOrder⟩ := List.pairwise_cons.mp sorted
      by_cases past : u ≤ v
      · have notBeyond : ¬v < u := by omega
        rw [List.filter_cons_of_pos (by simpa using past),
          List.filter_cons_of_neg (by simpa using notBeyond), List.cons_append, ih inOrder]
      · have beyond : ∀ w ∈ u :: rest, v < w := by
          intro w member
          rcases List.mem_cons.mp member with rfl | later
          · omega
          · have := from_ w later
            omega
        have none : (u :: rest).filter (· ≤ v) = [] := by
          refine List.filter_eq_nil_iff.mpr fun w member => ?_
          simpa using beyond w member
        rw [none, List.nil_append]
        exact List.filter_eq_self.mpr fun w member => by simpa using beyond w member

/-- (upTo n) are the versions from 0 to n. -/
def upTo (n : Nat) : List Int :=
  (List.range (n + 1)).map fun (u : Nat) => (u : Int)

/-- (Contiguous tree place n) says that the versions of a log are those from 0 to n. -/
def Contiguous (tree : Tree) (place : Place) (n : Nat) : Prop :=
  listVersions tree place = .ok (upTo n)

/-- The versions up to n begin with those up to an earlier one. -/
theorem upTo_append {n v : Nat} (past : v ≤ n)
    : ∃ more, upTo n = upTo v ++ more ∧ ∀ w ∈ more, (v : Int) < w := by
  obtain ⟨rest, rfl⟩ := Nat.exists_eq_add_of_le past
  refine ⟨((List.range rest).map (v + 1 + ·)).map fun (u : Nat) => (u : Int), ?_, ?_⟩
  · rw [upTo, Nat.add_right_comm, List.range_add, List.map_append, upTo]
  · intro w member
    obtain ⟨_, isLater, rfl⟩ := List.mem_map.mp member
    obtain ⟨i, _, rfl⟩ := List.mem_map.mp isLater
    omega

/-- The versions up to a bound are the naturals up to it. -/
theorem mem_upTo {n : Nat} {v : Int}
    : v ∈ upTo n ↔ ∃ u ≤ n, (u : Int) = v := by
  simp only [upTo, List.mem_map, List.mem_range, Nat.lt_succ_iff]

/-- The versions up to a bound are in order. -/
theorem upTo_sorted (n : Nat)
    : (upTo n).Pairwise (· ≤ ·) := by
  rw [upTo, List.pairwise_map]
  exact List.pairwise_le_range.imp Int.ofNat_le.mpr

/-- A contiguous log has exactly the versions up to its last. -/
theorem Contiguous.mem_committed {tree : Tree} {place : Place} {n : Nat} {v : Int}
    (h : Contiguous tree place n)
    : v ∈ committed tree place ↔ ∃ u ≤ n, (u : Int) = v := by
  rw [committed_of_listVersions h, mem_upTo]

/-- The versions of a contiguous log that do not come after one of them. -/
theorem filter_upTo {n v : Nat} (past : v ≤ n)
    : (upTo n).filter (· ≤ (v : Int)) = upTo v := by
  obtain ⟨more, split, later⟩ := upTo_append past
  have before : (upTo v).filter (· ≤ (v : Int)) = upTo v := by
    apply List.filter_eq_self.mpr
    intro w member
    obtain ⟨u, below, rfl⟩ := mem_upTo.mp member
    simp only [decide_eq_true_eq]
    omega
  have beyond : more.filter (· ≤ (v : Int)) = [] := by
    apply List.filter_eq_nil_iff.mpr
    intro w member
    have := later w member
    simp only [decide_eq_true_eq]
    omega
  rw [split, List.filter_append, before, beyond, List.append_nil]

-----------------------------------------------------------------------------------------
-- How a log changes
-----------------------------------------------------------------------------------------

/-- (Grows place before after added) says that the log got the files of some versions, above all
versions that it had, and that the file of no other version was touched.
-/
structure Grows (place : Place) (before after : Tree) (added : List Int) : Prop where
  listing : committed after place = committed before place ++ added
  above : ∀ v ∈ added, ∀ u ∈ committed before place, u < v
  absent : ∀ v ∈ added, ∀ node, before.find (place.file v) ≠ .ok node
  untouched : ∀ v, v ∉ added → after.find (place.file v) = before.find (place.file v)

/-- (Trims place before after first) says that the files of the versions below first, a version
that remains, were deleted, and that the file of no other version was touched.
-/
structure Trims (place : Place) (before after : Tree) (first : Int) : Prop where
  remains : first ∈ committed before place
  listing : committed after place = (committed before place).filter (first ≤ ·)
  untouched
    : ∀ v, (v ∈ committed before place → first ≤ v)
      → after.find (place.file v) = before.find (place.file v)

variable {tree before after : Tree} {place : Place} {v : Int}

/-- What is read at a path depends on the file there alone. -/
theorem readPayloads_congr {path : Store.Path} (same : after.find path = before.find path)
    : readPayloads after path = readPayloads before path := by
  simp only [readPayloads, Tree.read, same]

/-- The lines of a version depend on its file alone. -/
theorem load_congr (same : after.find (place.file v) = before.find (place.file v))
    : load after place v = load before place v := by
  unfold load
  dsimp only
  rw [same, readPayloads_congr same]

/-- So does its time of modification. -/
theorem modifiedMillis_congr (same : after.find (place.file v) = before.find (place.file v))
    : modifiedMillis after place v = modifiedMillis before place v := by
  unfold modifiedMillis Tree.modified
  dsimp only
  rw [same]

/-- A file is loaded as the documents on its lines. -/
theorem load_of_payloadsOf {content : ByteArray} {nanos : Int} {lines : List Value}
    (there : tree.find (place.file v) = .ok (.file content nanos))
    (decoded : payloadsOf content = some lines)
    : load tree place v = .ok lines := by
  have read : readPayloads tree (place.file v) = .ok lines := by
    unfold readPayloads Tree.read
    rw [there]
    simp only [bind, Except.bind, decoded]
  unfold load
  dsimp only
  rw [there, read]

/-- A file with a line that is no document is a failed read. -/
theorem load_of_undecoded {content : ByteArray} {nanos : Int}
    (there : tree.find (place.file v) = .ok (.file content nanos))
    (undecoded : payloadsOf content = none)
    : ∃ detail,
        load tree place v = .error (.readFrom .malformedDocument .logRead detail (some v)) := by
  have read : readPayloads tree (place.file v) = .error .malformedDocument := by
    unfold readPayloads Tree.read
    rw [there]
    simp only [bind, Except.bind, undecoded]
  unfold load
  dsimp only
  rw [there, read]
  exact ⟨_, rfl⟩

/-- What can be loaded is there. -/
theorem exists_find_of_load {lines : List Value} (h : load tree place v = .ok lines)
    : ∃ node, tree.find (place.file v) = .ok node := by
  unfold load at h
  dsimp only at h
  split at h
  · cases h
  · cases h
  case h_3 node found => exact ⟨node, found⟩

/-- The file of a version that can be loaded has a time of modification. -/
theorem exists_modifiedMillis_of_load {lines : List Value} (h : load tree place v = .ok lines)
    : ∃ millis, modifiedMillis tree place v = .ok millis := by
  obtain ⟨node, found⟩ := exists_find_of_load h
  have modified : ∃ nanos, tree.modified (place.file v) = .ok nanos := by
    unfold Tree.modified
    rw [found]
    cases node <;> exact ⟨_, rfl⟩
  obtain ⟨nanos, modified⟩ := modified
  refine ⟨Int.fdiv nanos 1000000, ?_⟩
  unfold modifiedMillis
  dsimp only
  rw [modified]

end DeltaFeed.Log
