import DeltaFeed.Log.Replay
import DeltaFeed.Proofs.Text.Digits

/-! What the reference of a deletion vector tells of its mask. A reference writes the offset at
its end, after a mark that may as well stand in a path. So a vector without an offset can be
spelled like one with an offset, and that is the only way for two masks to share a reference.
-/

namespace DeltaFeed

-----------------------------------------------------------------------------------------
-- Numerals after a mark
-----------------------------------------------------------------------------------------

namespace Text

theorem toList_decimal (n : Int)
    : (decimal n).toList = signedPadded 0 n := by
  cases n <;> simp [decimal, signedPadded, padded, List.leftpad]

/-- A number is determined by its decimal form. -/
theorem decimal_inj {m n : Int} (h : decimal m = decimal n)
    : m = n := by
  have same := congrArg String.toList h
  rw [toList_decimal, toList_decimal] at same
  exact signedPadded_inj same

/-- The decimal form of a number has no at-sign. -/
theorem at_not_mem_decimal (n : Int)
    : '@' ∉ (decimal n).toList := by
  rw [toList_decimal]
  intro member
  rcases isDigit_of_mem_signedPadded member with digit | minus
  · cases digit
  · exact absurd minus (by decide)

/-- A mark that does not come again parts a text in one way only. -/
theorem append_mark_inj {mark : Char} {before after front back : List Char} (once : mark ∉ after)
    (onceBack : mark ∉ back) (h : before ++ mark :: after = front ++ mark :: back)
    : before = front ∧ after = back := by
  rcases List.append_eq_append_iff.mp h with ⟨more, isFront, rest⟩ | ⟨more, isBefore, rest⟩
  · cases more with
    | nil => simp_all
    | cons c more =>
        obtain ⟨-, rfl⟩ := List.cons.inj rest
        exact absurd (List.mem_append_right more List.mem_cons_self) once
  · cases more with
    | nil => simp_all
    | cons c more =>
        obtain ⟨-, rfl⟩ := List.cons.inj rest
        exact absurd (List.mem_append_right more List.mem_cons_self) onceBack

/-- A path and an offset are told by the two of them with the mark between. -/
theorem append_decimal_inj {path other : String} {m n : Int}
    (h : path ++ "@" ++ decimal m = other ++ "@" ++ decimal n)
    : path = other ∧ m = n := by
  have same := congrArg String.toList h
  simp only [String.toList_append, List.append_assoc] at same
  obtain ⟨paths, numerals⟩ := append_mark_inj (at_not_mem_decimal m) (at_not_mem_decimal n) same
  exact ⟨String.toList_inj.mp paths, decimal_inj (String.toList_inj.mp numerals)⟩

end Text

-----------------------------------------------------------------------------------------
-- References
-----------------------------------------------------------------------------------------

namespace DeletionVector

variable {a b : DeletionVector}

/-- (a.SameMask b) says that two deletion vectors are of the same mask. -/
structure SameMask (a b : DeletionVector) : Prop where
  storageType : a.storageType = b.storageType
  pathOrInline : a.pathOrInline = b.pathOrInline
  offset : a.offset = b.offset

/-- To be the same mask is symmetric. -/
theorem SameMask.symm (h : a.SameMask b)
    : b.SameMask a :=
  ⟨h.storageType.symm, h.pathOrInline.symm, h.offset.symm⟩

/-- (a.Spells b) says that the path of a, which has no offset, spells the path and the offset of b.
-/
structure Spells (a b : DeletionVector) : Prop where
  storageType : a.storageType = b.storageType
  offset : a.offset = none
  pathOrInline
    : ∃ offset,
        b.offset = some offset
        ∧ a.pathOrInline = b.pathOrInline ++ "@" ++ Text.decimal offset

/-- A vector whose path spells out the offset of another is not the same mask. -/
theorem Spells.not_sameMask (h : a.Spells b)
    : ¬a.SameMask b := by
  obtain ⟨_, isOffset, _⟩ := h.pathOrInline
  intro same
  have := same.offset
  rw [h.offset, isOffset] at this
  cases this

/-- (vector.located) is a reference without the storage type. -/
def located (vector : DeletionVector) : String :=
  match vector.offset with
  | none => vector.pathOrInline
  | some offset => vector.pathOrInline ++ "@" ++ Text.decimal offset

/-- A reference is the storage type and the place of a vector. -/
theorem reference_eq (vector : DeletionVector)
    : vector.reference = vector.storageType ++ vector.located := by
  unfold reference located
  cases vector.offset with
  | none => rfl
  | some offset => simp only [String.append_assoc]

/-- The same masks have the same reference. -/
theorem reference_of_sameMask (h : a.SameMask b)
    : a.reference = b.reference := by
  rw [reference, reference, h.storageType, h.pathOrInline, h.offset]

/-- A path that spells out an offset leads to the same reference. -/
theorem Spells.reference_eq (h : a.Spells b)
    : a.reference = b.reference := by
  obtain ⟨offset, isOffset, spelled⟩ := h.pathOrInline
  simp only [reference, h.offset, isOffset, h.storageType, spelled, String.append_assoc]

/-- A reference parts into the storage type and the rest where storage types have one length. -/
theorem located_eq_of_reference_eq (length : a.storageType.length = b.storageType.length)
    (h : a.reference = b.reference)
    : a.storageType = b.storageType ∧ a.located = b.located := by
  rw [DeletionVector.reference_eq, DeletionVector.reference_eq] at h
  have same := congrArg String.toList h
  rw [String.toList_append, String.toList_append] at same
  obtain ⟨storage, rest⟩ := List.append_inj same length
  exact ⟨String.toList_inj.mp storage, String.toList_inj.mp rest⟩

/-- Two masks with storage types of one length have the same reference only if one of them spells
the other.
-/
theorem reference_eq_iff (length : a.storageType.length = b.storageType.length)
    : a.reference = b.reference ↔ a.SameMask b ∨ a.Spells b ∨ b.Spells a := by
  constructor
  · intro h
    obtain ⟨storage, located⟩ := located_eq_of_reference_eq length h
    unfold DeletionVector.located at located
    cases isA : a.offset with
    | none =>
        cases isB : b.offset with
        | none =>
            rw [isA, isB] at located
            exact .inl ⟨storage, located, isA.trans isB.symm⟩
        | some n =>
            rw [isA, isB] at located
            exact .inr (.inl ⟨storage, isA, n, isB, located⟩)
    | some m =>
        cases isB : b.offset with
        | none =>
            rw [isA, isB] at located
            exact .inr (.inr ⟨storage.symm, isB, m, isA, located.symm⟩)
        | some n =>
            rw [isA, isB] at located
            obtain ⟨path, rfl⟩ := Text.append_decimal_inj located
            exact .inl ⟨storage, path, isA.trans isB.symm⟩
  · rintro (same | spells | spells)
    · exact reference_of_sameMask same
    · exact spells.reference_eq
    · exact spells.reference_eq.symm

end DeletionVector

-----------------------------------------------------------------------------------------
-- Keys of live files
-----------------------------------------------------------------------------------------

namespace Log

open DeletionVector

variable {x y : Action} {a b : DeletionVector}

/-- Two actions with deletion vectors have the same key if their full paths and their references are
the same.
-/
theorem FileKey.of_eq_iff (base : String) (isA : x.deletionVector = some a)
    (isB : y.deletionVector = some b)
    : FileKey.of base x = FileKey.of base y
      ↔ Location.full base x.path = Location.full base y.path ∧ a.reference = b.reference := by
  simp [FileKey.of, isA, isB]

/-- A reference identifies the mask of a deletion vector, and a key the mask on a data file, up to
one thing: where storage types are single characters, two vectors share a reference exactly if they
are of the same mask or one of them, without an offset, spells the path and the offset of the other.
So references tell two masks apart exactly if neither spells the other.
-/
theorem masks_identified_iff (single : a.storageType.length = 1)
    (singleToo : b.storageType.length = 1)
    : (a.reference = b.reference ↔ a.SameMask b ∨ a.Spells b ∨ b.Spells a)
      ∧ ((a.reference = b.reference → a.SameMask b) ↔ ¬a.Spells b ∧ ¬b.Spells a)
      ∧ ∀ base (x y : Action),
          x.deletionVector = some a
          → y.deletionVector = some b
          → (FileKey.of base x = FileKey.of base y
              ↔ Location.full base x.path = Location.full base y.path
                ∧ (a.SameMask b ∨ a.Spells b ∨ b.Spells a)) := by
  have shared := reference_eq_iff (single.trans singleToo.symm)
  refine ⟨shared, ?_, ?_⟩
  · constructor
    · intro identifies
      constructor
      · intro spells
        exact spells.not_sameMask (identifies spells.reference_eq)
      · intro spells
        exact spells.not_sameMask (identifies spells.reference_eq.symm).symm
    · rintro ⟨notSpelled, notSpelling⟩ same
      rcases shared.mp same with sameMask | spells | spells
      · exact sameMask
      · exact absurd spells notSpelled
      · exact absurd spells notSpelling
  · intro base x y isA isB
    rw [FileKey.of_eq_iff base isA isB, shared]

def sampleOffset : DeletionVector :=
  { storageType := "u", pathOrInline := "x", offset := some 1 }

/-- A deletion vector without one, at a path that ends as if it had it. -/
def sampleSpelling : DeletionVector :=
  { storageType := "u", pathOrInline := "x@1" }

/-- A third one, at another path. -/
def sampleElsewhere : DeletionVector :=
  { storageType := "u", pathOrInline := "x@01", offset := some 1 }

/-- The mask of the vector with an offset is told from the third one, and not from the other. -/
theorem masks_identified_iff_sampleSpelling
    : (sampleOffset.reference = sampleElsewhere.reference → sampleOffset.SameMask sampleElsewhere)
      ∧ ¬(sampleOffset.reference = sampleSpelling.reference
          → sampleOffset.SameMask sampleSpelling) := by
  have spells : sampleSpelling.Spells sampleOffset :=
    ⟨rfl, rfl, 1, rfl, by decide⟩
  constructor
  · refine (masks_identified_iff (by decide) (by decide)).2.1.mpr ⟨?_, ?_⟩
    · exact fun spells => nomatch spells.offset
    · exact fun spells => nomatch spells.offset
  · exact mt (masks_identified_iff (by decide) (by decide)).2.1.mp fun apart => apart.2 spells

/-- Two masks share a reference, so that the removal of one drops the file with the other. -/
theorem removed_sampleSpelling
    : sampleOffset.storageType.length = 1
      ∧ sampleSpelling.storageType.length = 1
      ∧ sampleOffset.reference = sampleSpelling.reference
      ∧ sampleOffset.pathOrInline ≠ sampleSpelling.pathOrInline
      ∧ sampleOffset.offset ≠ sampleSpelling.offset
      ∧ LiveFiles.replay "t"
          (LiveFiles.replay "t" [] [.add { path := "f", deletionVector := some sampleOffset }])
          [.remove { path := "f", deletionVector := some sampleSpelling }]
        = [] := by
  decide +kernel

end Log

end DeltaFeed
