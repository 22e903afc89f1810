import DeltaFeed.Text.Utf8
import Mathlib.Data.Nat.Basic

/-! A text comes back from its bytes. The first byte of a character tells how many follow it and how
far they reach, so that a character is read from its own bytes whatever comes after them.
-/

namespace DeltaFeed.Text

variable {count code result bits n : Nat} {low high lead : UInt8} {bytes rest : List UInt8}
  {c : Char}

-----------------------------------------------------------------------------------------
-- Lead bytes
-----------------------------------------------------------------------------------------

/-- Bytes are told apart as numbers. -/
theorem ofNat_eq_iff (small : n < 256) (b : UInt8)
    : UInt8.ofNat n = b ↔ n = b.toNat := by
  rw [← UInt8.toNat_inj, UInt8.toNat_ofNat_of_lt' small]

/-- A byte below 0x80 stands alone. -/
theorem sequenceForm_one (most : n < 0x80)
    : sequenceForm (UInt8.ofNat n) = some (0, 0, 0) := by
  have small : n < 256 := by omega
  simp only [sequenceForm, UInt8.ofNat_lt_iff small]
  exact if_pos most

/-- A byte from 0xc2 to 0xdf leads a sequence of two. -/
theorem sequenceForm_two (least : 0xc2 ≤ n) (most : n < 0xe0)
    : sequenceForm (UInt8.ofNat n) = some (1, 0x80, 0xbf) := by
  have small : n < 256 := by omega
  simp only [sequenceForm, UInt8.ofNat_lt_iff small]
  rw [if_neg, if_neg, if_pos]
  all_goals simp; omega

/-- The first lead of three bytes leaves out what two bytes can hold, and the last but two the
surrogates.
-/
theorem sequenceForm_three (least : 0xe0 ≤ n) (most : n < 0xf0)
    : sequenceForm (UInt8.ofNat n)
      = some (2, if n = 0xe0 then 0xa0 else 0x80, if n = 0xed then 0x9f else 0xbf) := by
  have small : n < 256 := by omega
  simp only [sequenceForm, UInt8.ofNat_lt_iff small, ofNat_eq_iff small, UInt8.reduceToNat]
  grind

/-- The first lead of four bytes leaves out what three bytes can hold, and the last what is no
character.
-/
theorem sequenceForm_four (least : 0xf0 ≤ n) (most : n ≤ 0xf4)
    : sequenceForm (UInt8.ofNat n)
      = some (3, if n = 0xf0 then 0x90 else 0x80, if n = 0xf4 then 0x8f else 0xbf) := by
  have small : n < 256 := by omega
  simp only [sequenceForm, UInt8.ofNat_lt_iff small, ofNat_eq_iff small, UInt8.reduceToNat]
  grind

theorem leadBits_one (most : n < 0x80)
    : leadBits (UInt8.ofNat n) = n := by
  have small : n < 256 := by omega
  simp only [leadBits, UInt8.ofNat_lt_iff small, UInt8.reduceToNat]
  rw [if_pos most, UInt8.toNat_ofNat_of_lt' small]

/-- The lead of a sequence of two has five bits of the character. -/
theorem leadBits_two (fits : bits < 32)
    : leadBits (UInt8.ofNat (bits + 0xc0)) = bits := by
  have small : bits + 0xc0 < 256 := by omega
  simp only [leadBits, UInt8.ofNat_lt_iff small, UInt8.reduceToNat, UInt8.toNat_ofNat_of_lt' small]
  rw [if_neg (by omega), if_pos (by omega)]
  omega

/-- The lead of a sequence of three has four bits. -/
theorem leadBits_three (fits : bits < 16)
    : leadBits (UInt8.ofNat (bits + 0xe0)) = bits := by
  have small : bits + 0xe0 < 256 := by omega
  simp only [leadBits, UInt8.ofNat_lt_iff small, UInt8.reduceToNat, UInt8.toNat_ofNat_of_lt' small]
  rw [if_neg (by omega), if_neg (by omega), if_pos (by omega)]
  omega

/-- The lead of a sequence of four has three bits. -/
theorem leadBits_four (fits : bits < 8)
    : leadBits (UInt8.ofNat (bits + 0xf0)) = bits := by
  have small : bits + 0xf0 < 256 := by omega
  simp only [leadBits, UInt8.ofNat_lt_iff small, UInt8.reduceToNat, UInt8.toNat_ofNat_of_lt' small]
  rw [if_neg (by omega), if_neg (by omega), if_neg (by omega)]
  omega

-----------------------------------------------------------------------------------------
-- Bytes that follow
-----------------------------------------------------------------------------------------

/-- (Continues count low high code bytes result rest) says that the bytes that end a sequence
complete its code to a result and leave a rest.
-/
structure Continues (count : Nat) (low high : UInt8) (code : Nat) (bytes : List UInt8)
    (result : Nat) (rest : List UInt8)
    : Prop where
  completes : (trailing count low high code bytes).1 = some result
  leaves : (trailing count low high code bytes).2.val = rest

theorem Continues.done (complete : code = result)
    : Continues 0 low high code rest result rest :=
  ⟨by rw [trailing, complete], by rw [trailing]⟩

/-- A byte that follows adds its six bits. -/
theorem Continues.step (fits : bits < 64) (least : low.toNat ≤ bits + 0x80)
    (most : bits + 0x80 ≤ high.toNat)
    (h : Continues count 0x80 0xbf (code * 64 + bits) bytes result rest)
    : Continues (count + 1) low high code (UInt8.ofNat (bits + 0x80) :: bytes) result rest := by
  have value : (UInt8.ofNat (bits + 0x80)).toNat = bits + 0x80 :=
    UInt8.toNat_ofNat_of_lt' (by omega : bits + 0x80 < 256)
  have follows : follows low high (UInt8.ofNat (bits + 0x80)) = true := by
    simp only [Text.follows, UInt8.le_iff_toNat_le, value, Bool.and_eq_true, decide_eq_true_eq]
    exact ⟨least, most⟩
  have low : (bits + 0x80) % 64 = bits := by omega
  constructor
  · rw [trailing, if_pos follows, value, low]
    exact h.completes
  · rw [trailing, if_pos follows, value, low]
    exact h.leaves

/-- A sequence that is complete is read as its character. -/
theorem Continues.decodeLossy_eq (form : sequenceForm lead = some (count, low, high))
    (h : Continues count low high (leadBits lead) bytes c.toNat rest)
    : decodeLossy (lead :: bytes) = c :: decodeLossy rest := by
  rw [decodeLossy, form]
  simp only [h.completes, h.leaves, Option.map_some, Option.getD_some, Char.ofNat_toNat]

-----------------------------------------------------------------------------------------
-- Characters
-----------------------------------------------------------------------------------------

/-- A character up to 0x7f is decoded from its byte. -/
theorem decodeLossy_one (c : Char) (rest : List UInt8) (most : c.toNat ≤ 0x7f)
    : decodeLossy (UInt8.ofNat c.toNat :: rest) = c :: decodeLossy rest := by
  refine Continues.decodeLossy_eq (sequenceForm_one (by omega)) ?_
  exact .done (leadBits_one (by omega))

/-- A character up to 0x7ff is decoded from its two bytes. -/
theorem decodeLossy_two (c : Char) (rest : List UInt8) (least : 0x7f < c.toNat)
    (most : c.toNat ≤ 0x7ff)
    : decodeLossy
        (UInt8.ofNat (c.toNat / 64 % 32 + 0xc0) :: UInt8.ofNat (c.toNat % 64 + 0x80) :: rest)
      = c :: decodeLossy rest := by
  refine Continues.decodeLossy_eq (sequenceForm_two (by omega) (by omega)) ?_
  rw [leadBits_two (by omega)]
  exact .step (by omega) (by simp) (by simp; omega) (.done (by omega))

/-- The narrow ranges of the second byte are those of codes that are no surrogates and do not fit
into two bytes.
-/
theorem decodeLossy_three (c : Char) (rest : List UInt8) (least : 0x7ff < c.toNat)
    (most : c.toNat ≤ 0xffff)
    : decodeLossy
        (UInt8.ofNat (c.toNat / 4096 % 16 + 0xe0) :: UInt8.ofNat (c.toNat / 64 % 64 + 0x80)
          :: UInt8.ofNat (c.toNat % 64 + 0x80) :: rest)
      = c :: decodeLossy rest := by
  have valid : c.toNat < 0xd800 ∨ 0xdfff < c.toNat ∧ c.toNat < 0x110000 := c.valid
  refine Continues.decodeLossy_eq (sequenceForm_three (by omega) (by omega)) ?_
  rw [leadBits_three (by omega)]
  refine .step (by omega) ?_ ?_ (.step (by omega) (by simp) (by simp; omega) (.done (by omega)))
  · split
    · simp
      omega
    · simp
  · split <;> (simp; omega)

/-- The narrow ranges of the second byte are those of codes that do not fit into three bytes and are
codes of characters.
-/
theorem decodeLossy_four (c : Char) (rest : List UInt8) (least : 0xffff < c.toNat)
    : decodeLossy
        (UInt8.ofNat (c.toNat / 262144 % 8 + 0xf0) :: UInt8.ofNat (c.toNat / 4096 % 64 + 0x80)
          :: UInt8.ofNat (c.toNat / 64 % 64 + 0x80) :: UInt8.ofNat (c.toNat % 64 + 0x80) :: rest)
      = c :: decodeLossy rest := by
  have valid : c.toNat < 0xd800 ∨ 0xdfff < c.toNat ∧ c.toNat < 0x110000 := c.valid
  refine Continues.decodeLossy_eq (sequenceForm_four (by omega) (by omega)) ?_
  rw [leadBits_four (by omega)]
  refine .step (by omega) ?_ ?_ (.step (by omega) (by simp) (by simp; omega)
    (.step (by omega) (by simp) (by simp; omega) (.done (by omega))))
  · split
    · simp
      omega
    · simp
  · split <;> (simp; omega)

/-- A character is read from its bytes, whatever follows. -/
theorem decodeLossy_utf8EncodeChar (c : Char) (rest : List UInt8)
    : decodeLossy (String.utf8EncodeChar c ++ rest) = c :: decodeLossy rest := by
  have code : c.val.toNat = c.toNat := rfl
  simp only [String.utf8EncodeChar, code]
  split
  case isTrue one => exact decodeLossy_one c rest one
  case isFalse overOne =>
    split
    case isTrue two => exact decodeLossy_two c rest (by omega) two
    case isFalse overTwo =>
      split
      case isTrue three => exact decodeLossy_three c rest (by omega) three
      case isFalse overThree => exact decodeLossy_four c rest (by omega)

/-- A text is read from its bytes. -/
theorem decodeLossy_encodeUtf8 (text : List Char)
    : decodeLossy (encodeUtf8 text) = text := by
  induction text with
  | nil => rw [encodeUtf8, List.flatMap_nil, decodeLossy]
  | cons c text ih =>
      rw [encodeUtf8, List.flatMap_cons, decodeLossy_utf8EncodeChar]
      exact congrArg (c :: ·) ih

end DeltaFeed.Text
