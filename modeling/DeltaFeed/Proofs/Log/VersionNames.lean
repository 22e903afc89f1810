import DeltaFeed.Proofs.Log.CommitFiles
import DeltaFeed.Proofs.Store.Regular
import Mathlib.Algebra.Group.Int.Defs

/-! The versions of a log and the names of their files. Where the names in a directory are ASCII, a
name that is taken for that of a commit file is the name of the file of the version that it is read
as, so that listing a directory undoes naming its files.
-/

namespace DeltaFeed.Log

open Store (Tree Node AreShort)

-----------------------------------------------------------------------------------------
-- Names that are read
-----------------------------------------------------------------------------------------

/-- (IsAscii name) holds of names of ASCII characters. -/
def IsAscii (name : String) : Prop :=
  ∀ c ∈ name.toList, c.toNat < 128

instance (name : String) : Decidable (IsAscii name) :=
  decidable_of_iff (name.toList.all fun c => decide (c.toNat < 128)) (by simp [IsAscii])

/-- (version? digits name) is the number that the name of a commit file writes. -/
def version? (digits : Nat) (name : String) : Option Nat :=
  (stem? digits name).map (Nat.ofDigitChars 10 · 0)

variable {digits n : Nat} {name : String} {names : List String} {stem : List Char}

theorem toList_eq_of_stem? (h : stem? digits name = some stem)
    : name.toList = stem ++ extension ∧ stem.length = digits ∧ stem ≠ [] := by
  unfold stem? at h
  dsimp only at h
  split at h
  case isFalse => cases h
  case isTrue isStem =>
    cases h
    simp only [Bool.and_eq_true, beq_iff_eq, Bool.not_eq_true', List.isEmpty_eq_false_iff] at isStem
    obtain ⟨⟨⟨ends, _⟩, length⟩, nonempty⟩ := isStem
    obtain ⟨front, whole⟩ := List.isSuffixOf_iff_suffix.mp ends
    refine ⟨?_, length, nonempty⟩
    rw [← whole, List.length_append, Nat.add_sub_cancel, List.take_left]

/-- What stands before the ending of an ASCII name of a commit file is a padded numeral. -/
theorem padded_of_stem? (ascii : IsAscii name) (h : stem? digits name = some stem)
    : Nat.ofDigitChars 10 stem 0 < 10 ^ digits
      ∧ Text.padded digits (Nat.ofDigitChars 10 stem 0) = stem := by
  obtain ⟨whole, rfl, nonempty⟩ := toList_eq_of_stem? h
  have isDigit : ∀ c ∈ stem, c.isDigit = true := fun c member =>
    Text.isDigit_of_ascii (ascii c (whole ▸ List.mem_append_left _ member))
      (List.all_eq_true.mp (stem?_digits h) c member)
  exact ⟨Text.ofDigitChars_lt isDigit, Text.padded_ofDigitChars isDigit nonempty⟩

/-- An ASCII name writes a version exactly if it is the name of its file. -/
theorem version?_eq_some_iff (positive : 0 < digits) (ascii : IsAscii name)
    : version? digits name = some n ↔ n < 10 ^ digits ∧ name = fileName digits n := by
  rw [version?, Option.map_eq_some_iff]
  constructor
  · rintro ⟨stem, isStem, rfl⟩
    obtain ⟨small, padded⟩ := padded_of_stem? ascii isStem
    refine ⟨small, String.toList_inj.mp ?_⟩
    rw [toList_fileName, (toList_eq_of_stem? isStem).1]
    exact congrArg (· ++ extension) padded.symm
  · rintro ⟨small, rfl⟩
    exact ⟨_, stem?_fileName positive small, Text.ofDigitChars_padded digits n⟩

-----------------------------------------------------------------------------------------
-- Versions that names write
-----------------------------------------------------------------------------------------

/-- (IsNamed digits names v) says that the file of a version is among some names. -/
def IsNamed (digits : Nat) (names : List String) (v : Int) : Prop :=
  0 ≤ v ∧ v < 10 ^ digits ∧ fileName digits v ∈ names

/-- (written digits names) are the versions that some names write, in the order of the names. -/
def written (digits : Nat) (names : List String) : List Nat :=
  names.filterMap (version? digits)

theorem mem_written (positive : 0 < digits) (ascii : ∀ name ∈ names, IsAscii name)
    : n ∈ written digits names ↔ n < 10 ^ digits ∧ fileName digits n ∈ names := by
  rw [written, List.mem_filterMap]
  constructor
  · rintro ⟨name, member, writes⟩
    obtain ⟨small, rfl⟩ := (version?_eq_some_iff positive (ascii name member)).mp writes
    exact ⟨small, member⟩
  · rintro ⟨small, member⟩
    exact ⟨_, member, (version?_eq_some_iff positive (ascii _ member)).mpr ⟨small, rfl⟩⟩

/-- Two names never write the same version. -/
theorem nodup_written (positive : 0 < digits) (ascii : ∀ name ∈ names, IsAscii name)
    (distinct : names.Nodup)
    : (written digits names).Nodup := by
  induction names with
  | nil => exact List.nodup_nil
  | cons name rest ih =>
      obtain ⟨new, distinct⟩ := List.nodup_cons.mp distinct
      obtain ⟨first, others⟩ := List.forall_mem_cons.mp ascii
      have later := ih others distinct
      rw [written, List.filterMap_cons]
      split
      case h_1 => exact later
      case h_2 n writes =>
        obtain ⟨_, rfl⟩ := (version?_eq_some_iff positive first).mp writes
        refine List.nodup_cons.mpr ⟨fun again => new ?_, later⟩
        exact ((mem_written positive others).mp again).2

/-- The stems of the names are the padded numerals of the versions that they write. -/
theorem filterMap_stem? (ascii : ∀ name ∈ names, IsAscii name)
    : names.filterMap (stem? digits) = (written digits names).map (Text.padded digits) := by
  rw [written, List.map_filterMap]
  refine List.filterMap_congr fun name member => ?_
  cases isStem : stem? digits name with
  | none => rw [version?, isStem]; rfl
  | some stem =>
      rw [version?, isStem, Option.map_some, Option.map_some,
        (padded_of_stem? (ascii name member) isStem).2]

/-- The names are read as the versions that they write. A numeral with too many digits is none of
them, since no name is so long.
-/
theorem readAll_stems (positive : 0 < digits) (ascii : ∀ name ∈ names, IsAscii name)
    (short : AreShort names)
    : readAll (names.filterMap (stem? digits))
      = .ok ((written digits names).map fun (n : Nat) => (n : Int)) := by
  have small : ∀ n ∈ written digits names, n < 10 ^ digits := fun n member =>
    ((mem_written positive ascii).mp member).1
  rw [filterMap_stem? ascii]
  cases first : (written digits names).head? with
  | none => rw [List.head?_eq_none_iff.mp first]; rfl
  | some n =>
      obtain ⟨bound, named⟩ := (mem_written positive ascii).mp (List.mem_of_head? first)
      have fits : digits + 5 ≤ Store.maxNameBytes :=
        utf8ByteSize_fileName positive bound ▸ short _ named
      refine readAll_padded positive ?_ small
      exact Nat.le_trans (Nat.le_trans (Nat.le_add_right digits 5) fits) (by decide)

/-- (AreNamed digits names versions) says that versions are those whose files are among some names,
each of them once and in order.
-/
structure AreNamed (digits : Nat) (names : List String) (versions : List Int) : Prop where
  increasing : versions.Pairwise (· < ·)
  mem_iff : ∀ v, v ∈ versions ↔ IsNamed digits names v

theorem mem_map_written (positive : 0 < digits) (ascii : ∀ name ∈ names, IsAscii name) (v : Int)
    : v ∈ (written digits names).map (fun (n : Nat) => (n : Int)) ↔ IsNamed digits names v := by
  rw [List.mem_map]
  constructor
  · rintro ⟨n, member, rfl⟩
    obtain ⟨small, named⟩ := (mem_written positive ascii).mp member
    exact ⟨Int.natCast_nonneg n, mod_cast small, named⟩
  · rintro ⟨nonneg, small, named⟩
    obtain ⟨n, rfl⟩ := Int.eq_ofNat_of_zero_le nonneg
    exact ⟨n, (mem_written positive ascii).mpr ⟨mod_cast small, named⟩, rfl⟩

theorem areNamed_sort (positive : 0 < digits) (ascii : ∀ name ∈ names, IsAscii name)
    (distinct : names.Nodup)
    : AreNamed digits names
        (Order.sort (fun a b => decide (a ≤ b))
          ((written digits names).map fun (n : Nat) => (n : Int))) where
  increasing := by
    generalize all : (written digits names).map (fun (n : Nat) => (n : Int)) = versions
    have once : versions.Nodup :=
      all ▸ List.Pairwise.map _ (fun _ _ => mt Int.ofNat_inj.mp)
        (nodup_written positive ascii distinct)
    have sorted := sort_sorted versions
    refine (sorted.and ((Order.sort_perm versions).nodup_iff.mpr once)).imp ?_
    rintro a b ⟨notAfter, other⟩
    exact lt_of_le_of_ne notAfter other
  mem_iff v := (Order.sort_perm _).mem_iff.trans (mem_map_written positive ascii v)

-----------------------------------------------------------------------------------------
-- Versions that are listed
-----------------------------------------------------------------------------------------

variable {tree : Tree} {place : Place} {entries : List (String × Node)}

/-- Only in a directory there are names. -/
theorem exists_find_of_names {path : Store.Path} (some : tree.names path ≠ [])
    : ∃ entries, tree.find path = .ok (.directory entries) ∧ keys entries = tree.names path := by
  cases found : tree.find path with
  | error fault => simp [Tree.names, found] at some
  | ok node =>
      cases node with
      | directory entries => exact ⟨entries, rfl, by rw [Tree.names, found]; rfl⟩
      | file content modified => simp [Tree.names, found, Node.entries] at some
      | dangling => simp [Tree.names, found, Node.entries] at some

theorem listVersions_of_find (found : tree.find place.directory = .ok (.directory entries))
    : listVersions tree place = versionsOf place (keys entries) := by
  have names : tree.names place.directory = keys entries := by
    rw [Tree.names, found]
    rfl
  rw [listVersions, found, names]

/-- Names are listed as the versions whose files are among them, or else there are none. -/
theorem versionsOf_areNamed (positive : 0 < place.digits) (ascii : ∀ name ∈ names, IsAscii name)
    (distinct : names.Nodup) (short : AreShort names)
    : (versionsOf place names = .error (noCommits place)
        ∧ ¬∃ v, IsNamed place.digits names v)
      ∨ (∃ v, IsNamed place.digits names v)
        ∧ ∃ versions,
            versionsOf place names = .ok versions ∧ AreNamed place.digits names versions := by
  unfold versionsOf
  rw [readAll_stems positive ascii short]
  cases all : (written place.digits names).map fun (n : Nat) => (n : Int) with
  | nil =>
      refine Or.inl ⟨rfl, ?_⟩
      rintro ⟨v, named⟩
      have member := (mem_map_written positive ascii v).mpr named
      rw [all] at member
      cases member
  | cons first rest =>
      have named := (mem_map_written positive ascii first).mp (all ▸ List.mem_cons_self)
      refine Or.inr ⟨⟨first, named⟩, _, rfl, ?_⟩
      rw [← all]
      exact areNamed_sort positive ascii distinct

/-- Listing undoes naming. Where the names in the directory of a log are ASCII, the versions whose
files are in it are listed, each of them once and in order, whatever else is in it; it is refused as
a log without a commit exactly if there are none. No two versions have files of the same name. This
is so in every store that is made, since these are regular.
-/
theorem listing_inverts_naming (regular : tree.Regular) (positive : 0 < place.digits)
    (found : tree.find place.directory = .ok (.directory entries))
    (ascii : ∀ name ∈ keys entries, IsAscii name)
    : ((∃ v, IsNamed place.digits (keys entries) v)
        → ∃ versions,
            listVersions tree place = .ok versions
            ∧ AreNamed place.digits (keys entries) versions)
      ∧ (listVersions tree place = .error (noCommits place)
          ↔ ¬∃ v, IsNamed place.digits (keys entries) v)
      ∧ ∀ v w, fileName place.digits v = fileName place.digits w → v = w := by
  obtain ⟨distinct, short⟩ := regular.isListing found
  rw [listVersions_of_find found]
  rcases versionsOf_areNamed positive ascii distinct short with
    ⟨failed, none⟩ | ⟨some, versions, listed, named⟩
  · exact ⟨fun some => absurd some none, iff_of_true failed none, fun _ _ => fileName_inj⟩
  · refine ⟨fun _ => ⟨versions, listed, named⟩, iff_of_false ?_ (not_not_intro some),
      fun _ _ => fileName_inj⟩
    rw [listed]
    nofun

/-- (placeOfWidth digits) is the place of a log whose files have names of some width. -/
def placeOfWidth (digits : Nat) : Place :=
  { topPlace with digits }

/-- Names of which two are those of commit files of three digits, and none of four. -/
def sampleNames : List String :=
  ["010.json", "002.crc", "_last_checkpoint", "10.json", "01a.json", "002.json", "00010.json"]

/-- A store with files of these names in the directory of a log. -/
def sampleShelf : Tree :=
  .made (sampleNames.map fun name => .writeDeep (topPlace.directory.child name) .empty 0)

/-- Two versions of three digits are listed, and none of four. -/
theorem listing_inverts_naming_sampleShelf
    : listVersions sampleShelf (placeOfWidth 3) = .ok [2, 10]
      ∧ AreNamed 3 sampleNames [2, 10]
      ∧ listVersions sampleShelf (placeOfWidth 4) = .error (noCommits (placeOfWidth 4)) := by
  have inside : sampleShelf.names topPlace.directory = sampleNames := by
    decide +kernel
  have some : sampleShelf.names topPlace.directory ≠ [] := by
    rw [inside]
    exact List.cons_ne_nil _ _
  obtain ⟨entries, found, names⟩ := exists_find_of_names some
  rw [inside] at names
  have ascii : ∀ name ∈ keys entries, IsAscii name := by
    rw [names]
    decide
  have inverts (digits : Nat) (positive : 0 < (placeOfWidth digits).digits) :=
    listing_inverts_naming (Store.Tree.regular_made _) positive found ascii
  rw [names] at inverts
  have two : listVersions sampleShelf (placeOfWidth 3) = .ok [2, 10] := by
    decide +kernel
  have isThere : IsNamed 3 sampleNames 2 := by
    unfold IsNamed
    decide
  obtain ⟨versions, listed, named⟩ := (inverts 3 (by decide)).1 ⟨2, isThere⟩
  obtain rfl := Except.ok.inj (two.symm.trans listed)
  refine ⟨two, named, (inverts 4 (by decide)).2.1.mpr ?_⟩
  -- a name of four digits has nine bytes
  rintro ⟨v, nonneg, small, named⟩
  obtain ⟨n, rfl⟩ := Int.eq_ofNat_of_zero_le nonneg
  have size : (fileName 4 n).utf8ByteSize = 4 + 5 :=
    utf8ByteSize_fileName (by decide) (mod_cast small)
  have others : ∀ name ∈ sampleNames, name.utf8ByteSize ≠ 4 + 5 := by
    decide
  exact others _ named size

end DeltaFeed.Log
