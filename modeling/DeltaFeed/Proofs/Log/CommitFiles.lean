import DeltaFeed.Log.Writer
import DeltaFeed.Proofs.Document.RoundTrip
import DeltaFeed.Proofs.Log.Directories
import DeltaFeed.Proofs.Store.Writing
import Mathlib.Data.List.TakeWhile
import Mathlib.Data.String.Basic

/-! Commit files as they are written. Their names are listed as the versions that they are named
by, and the lines that are written into them are read as the values that they were written for.
-/

namespace DeltaFeed

/-- A padded numeral that is not too long is read as the number that it was written for. -/
theorem Integer.read_padded {n width : Nat} (positive : 0 < width) (small : n < 10 ^ width)
    (fits : width ≤ maxDigits)
    : Integer.read (Text.padded width n) = .ok n := by
  have isDigit : ∀ c ∈ Text.padded width n, c.isDigit = true :=
    fun _ => Text.isDigit_of_mem_padded
  have leads : leading (Text.padded width n) = Text.padded width n := by
    rw [leading, Text.trimBy_of_isDigit isDigit, Text.splitSign_of_isDigit isDigit]
    refine List.takeWhile_eq_self_iff.mpr fun c member => ?_
    rw [Text.isDecimal_of_isDigit (isDigit c member), Bool.true_or]
  have count : ¬maxDigits < Text.digitCount (Text.padded width n) := by
    have := List.countP_le_length (p := Text.isDecimal) (l := Text.padded width n)
    rw [Text.length_padded width n positive small] at this
    rw [Text.digitCount]
    omega
  have value : Text.readInteger (Text.padded width n) = some (n : Int) := by
    rw [Text.readInteger, Text.trimBy_of_isDigit isDigit, Text.splitSign_of_isDigit isDigit]
    dsimp only
    rw [Text.readNatural_of_isDigit isDigit (Text.padded_ne_nil width n),
      Text.ofDigitChars_padded]
    rfl
  unfold Integer.read
  dsimp only
  rw [leads, if_neg (by simp [count]), value]

end DeltaFeed

namespace DeltaFeed.Log

-----------------------------------------------------------------------------------------
-- Names
-----------------------------------------------------------------------------------------

open Store (Path IsName)

theorem utf8Len_of_isDigit {text : List Char} (isDigit : ∀ c ∈ text, c.isDigit = true)
    : String.utf8Len text = text.length := by
  induction text with
  | nil => rfl
  | cons c rest ih =>
      have digit := (Char.isDigit_iff_toNat.mp (isDigit c List.mem_cons_self)).2
      have single : c.utf8Size = 1 :=
        Char.utf8Size_eq_one_iff.mpr (UInt32.le_iff_toNat_le.mpr (Nat.le_trans digit (by decide)))
      rw [String.utf8Len_cons, single, List.length_cons,
        ih fun c member => isDigit c (List.mem_cons_of_mem _ member)]

theorem utf8ByteSize_fileName {digits n : Nat} (positive : 0 < digits) (small : n < 10 ^ digits)
    : (fileName digits n).utf8ByteSize = digits + 5 := by
  have stem : String.utf8Len (Text.signedPadded digits n) = digits := by
    have length := Text.length_padded digits n positive small
    exact (utf8Len_of_isDigit fun _ => Text.isDigit_of_mem_padded).trans length
  have ending : ".json".utf8ByteSize = 5 := rfl
  rw [fileName, String.utf8ByteSize_append, String.utf8ByteSize_ofList, stem, ending]

/-- The file of a version has a name that a store takes. -/
theorem isName_fileName {digits n : Nat} (positive : 0 < digits) (small : n < 10 ^ digits)
    (fits : digits + 5 ≤ Store.maxNameBytes)
    : IsName (fileName digits n) where
  notUp := fileName_ne_up digits n
  noNull := by
    have noNull : '\x00' ∉ (fileName digits n).toList := by
      rw [toList_fileName, List.mem_append, not_or]
      refine ⟨fun null => ?_, by decide⟩
      cases Text.isDigit_of_mem_padded null
    simpa [Store.hasNull] using noNull
  short := by
    rw [utf8ByteSize_fileName positive small]
    exact fits

/-- The name of the file of a version writes the version. -/
theorem stem?_fileName {digits n : Nat} (positive : 0 < digits) (small : n < 10 ^ digits)
    : stem? digits (fileName digits n) = some (Text.padded digits n) := by
  have text : (fileName digits n).toList = Text.padded digits n ++ extension :=
    toList_fileName digits n
  have length := Text.length_padded digits n positive small
  have isDigit : (Text.padded digits n).all Text.isDigit = true :=
    List.all_eq_true.mpr fun _ member =>
      Text.isDigit_of_isDecimal (Text.isDecimal_of_isDigit (Text.isDigit_of_mem_padded member))
  have stem : (Text.padded digits n ++ extension).take
      ((Text.padded digits n ++ extension).length - extension.length) = Text.padded digits n := by
    rw [List.length_append, Nat.add_sub_cancel, List.take_left]
  have ends : extension.isSuffixOf (Text.padded digits n ++ extension) = true :=
    List.isSuffixOf_iff_suffix.mpr (List.suffix_append _ _)
  have nonempty : (Text.padded digits n).isEmpty = false := by
    simpa using Text.padded_ne_nil digits n
  unfold stem?
  dsimp only
  rw [text, stem, ends, isDigit, length, nonempty, if_pos (by simp)]

-----------------------------------------------------------------------------------------
-- Listings
-----------------------------------------------------------------------------------------

theorem readAll_padded {digits : Nat} (positive : 0 < digits) (fits : digits ≤ Integer.maxDigits)
    {versions : List Nat} (small : ∀ v ∈ versions, v < 10 ^ digits)
    : readAll (versions.map (Text.padded digits))
      = .ok (versions.map fun (v : Nat) => (v : Int)) := by
  induction versions with
  | nil => rfl
  | cons v rest ih =>
      have first := Integer.read_padded positive (small v List.mem_cons_self) fits
      have later := ih fun v member => small v (List.mem_cons_of_mem _ member)
      rw [List.map_cons, readAll, first, later]
      rfl

/-- A directory with the files of the versions up to n is listed as these versions. -/
theorem versionsOf_eq_upTo {place : Place} {names : List String} {n : Nat}
    (positive : 0 < place.digits) (fits : place.digits ≤ Integer.maxDigits)
    (small : n < 10 ^ place.digits)
    (stems
      : names.filterMap (stem? place.digits)
        = (List.range (n + 1)).map (Text.padded place.digits))
    : versionsOf place names = .ok (upTo n) := by
  have below : ∀ v ∈ List.range (n + 1), v < 10 ^ place.digits := fun v member =>
    Nat.lt_of_le_of_lt (Nat.lt_succ_iff.mp (List.mem_range.mp member)) small
  have all : readAll (names.filterMap (stem? place.digits)) = .ok (upTo n) := by
    rw [stems, readAll_padded positive fits below, upTo]
  have nonempty : (upTo n).isEmpty = false := by
    simp [upTo]
  have sorted : (upTo n).Pairwise fun a b => decide (a ≤ b) = true :=
    (upTo_sorted n).imp decide_eq_true
  unfold versionsOf
  rw [all]
  simp only [bind, Except.bind, nonempty, Bool.false_eq_true, if_false,
    Order.sort_eq_insertionSort, sorted.insertionSort_eq]
  rfl

-----------------------------------------------------------------------------------------
-- Lines
-----------------------------------------------------------------------------------------

/-- (IsLine line) holds of a record that a line of a commit file can hold. -/
structure IsLine (line : Value) : Prop where
  isRecord : ∃ fields, line = .record fields
  kept : Document.Kept line
  shallow : Document.depth line ≤ Document.maxWrittenDepth

/-- A text in braces is one line of a file. -/
theorem linesOf_braces {text body : List Char} (braces : text = '{' :: body ++ ['}'])
    (printed : Document.Printed text) (rest : List Char)
    : linesOf (text ++ '\n' :: rest) = text :: linesOf rest := by
  have whole : '\n' ∉ text := fun member => absurd (printed '\n' member) (by decide)
  have trimmed : Text.trimBy isLineBlank text = text := by
    refine Text.trimBy_eq_self (fun c head => ?_) (fun c last => ?_)
    · rw [braces] at head
      cases head
      decide
    · rw [braces, List.getLast?_concat] at last
      cases last
      decide
  have solid : (!text.isEmpty) = true := by
    rw [braces]
    rfl
  rw [linesOf, List.splitOn_append_cons_self_of_not_mem whole, List.map_cons, trimmed,
    List.filter_cons_of_pos (p := fun line : List Char => !line.isEmpty) solid]
  rfl

/-- (IsDocument line text) says that a text is written for a line, and read as that line. -/
structure IsDocument (line : Value) (text : String) : Prop where
  written : Document.write line = .ok text
  read : Document.read text = some line
  printed : Document.Printed text.toList
  braces : ∃ body, text.toList = '{' :: body ++ ['}']

theorem IsLine.exists_isDocument {line : Value} (h : IsLine line)
    : ∃ text, IsDocument line text := by
  obtain ⟨text, written, read, printed⟩ := Document.exists_write h.kept h.shallow
  obtain ⟨fields, rfl⟩ := h.isRecord
  exact ⟨text, written, read, printed, Document.braces_of_write written⟩

/-- Each line has its document. -/
theorem exists_writeLines {lines : List Value} (isLine : ∀ line ∈ lines, IsLine line)
    : ∃ texts, writeLines lines = .ok texts ∧ List.Forall₂ IsDocument lines texts := by
  induction lines with
  | nil => exact ⟨[], rfl, .nil⟩
  | cons line rest ih =>
      obtain ⟨text, document⟩ := (isLine line List.mem_cons_self).exists_isDocument
      obtain ⟨texts, written, documents⟩ := ih fun l member =>
        isLine l (List.mem_cons_of_mem line member)
      refine ⟨text :: texts, ?_, .cons document documents⟩
      rw [writeLines, document.written, written]
      rfl

variable {lines : List Value} {texts : List String}

theorem readLines_of_documents (documents : List.Forall₂ IsDocument lines texts)
    : readLines (texts.map String.toList) = some lines := by
  induction documents with
  | nil => rfl
  | cons document _ ih =>
      rw [List.map_cons, readLines, String.ofList_toList, document.read, ih]
      rfl

/-- Lines that end with a line break are told apart again. -/
theorem linesOf_documents (documents : List.Forall₂ IsDocument lines texts)
    : linesOf (texts.flatMap fun text => text.toList ++ ['\n']) = texts.map String.toList := by
  induction documents with
  | nil => rfl
  | cons document _ ih =>
      obtain ⟨body, braces⟩ := document.braces
      rw [List.flatMap_cons, List.append_assoc, List.singleton_append,
        linesOf_braces braces document.printed, ih, List.map_cons]

/-- Each line of a content ends with a line break. -/
theorem toList_content (first : String) (rest : List String)
    : ("\n".intercalate (first :: rest) ++ "\n").toList
      = (first :: rest).flatMap fun text => text.toList ++ ['\n'] := by
  induction rest generalizing first with
  | nil => simp
  | cons next more ih =>
      have later := ih next
      rw [String.toList_append] at later ⊢
      rw [String.intercalate_cons_cons, List.flatMap_cons, ← later]
      simp

theorem fromUTF8?_toUTF8 (text : String)
    : String.fromUTF8? text.toUTF8 = some text :=
  dif_pos text.isValidUTF8

/-- The content of a commit file is read as the lines that were written into it. -/
theorem exists_contentOf {first : Value} {rest : List Value}
    (isLine : ∀ line ∈ first :: rest, IsLine line)
    : ∃ content,
        contentOf (first :: rest) = .ok content
        ∧ payloadsOf content.toUTF8 = some (first :: rest) := by
  obtain ⟨texts, written, documents⟩ := exists_writeLines isLine
  cases texts with
  | nil => cases documents
  | cons text more =>
      refine ⟨"\n".intercalate (text :: more) ++ "\n", ?_, ?_⟩
      · rw [contentOf, written]
        rfl
      · rw [payloadsOf, fromUTF8?_toUTF8]
        simp only [Option.bind_eq_bind, Option.bind_some]
        rw [toList_content, linesOf_documents documents, readLines_of_documents documents]

end DeltaFeed.Log
