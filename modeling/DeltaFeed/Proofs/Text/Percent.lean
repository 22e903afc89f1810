import DeltaFeed.Proofs.Text.Utf8
import DeltaFeed.Text.Percent

/-! Percent encodings. A text has many of them: each character is written as it is or by the bytes
of its UTF-8 form, and the digits of a byte may be capitals. They all stand for that text and no
other, since a percent sign is never written as it is.
-/

namespace DeltaFeed.Text

-----------------------------------------------------------------------------------------
-- The encodings of a text
-----------------------------------------------------------------------------------------

/-- (IsHexDigit n c) holds of the hexadecimal digit of a number below sixteen, in either case. -/
def IsHexDigit (n : Nat) (c : Char) : Prop :=
  "0123456789abcdef".toList[n]? = some c ∨ "0123456789ABCDEF".toList[n]? = some c

instance (n : Nat) (c : Char) : Decidable (IsHexDigit n c) :=
  inferInstanceAs (Decidable (_ ∨ _))

/-- (EncodesBytes written bytes) says that bytes are written as a percent sign and two digits each.
-/
inductive EncodesBytes : List Char → List UInt8 → Prop
  | nil : EncodesBytes [] []
  | cons {b high low written bytes} (isHigh : IsHexDigit (b.toNat / 16) high)
    (isLow : IsHexDigit (b.toNat % 16) low) (rest : EncodesBytes written bytes)
    : EncodesBytes ('%' :: high :: low :: written) (b :: bytes)

/-- (Encodes written text) says that a text is written in percent encoding. -/
inductive Encodes : List Char → List Char → Prop
  | nil : Encodes [] []
  | plain {c written text} (other : c ≠ '%') (rest : Encodes written text)
    : Encodes (c :: written) (c :: text)
  | escaped {c front written text} (first : EncodesBytes front (String.utf8EncodeChar c))
    (rest : Encodes written text)
    : Encodes (front ++ written) (c :: text)

variable {written text : List Char} {bytes : List UInt8} {c : Char}

/-- A text without percent signs is an encoding of itself. -/
theorem encodes_self (noPercent : '%' ∉ text)
    : Encodes text text := by
  induction text with
  | nil => exact .nil
  | cons c rest ih =>
      obtain ⟨other, noPercent⟩ := not_or.mp (mt List.mem_cons.mpr noPercent)
      exact .plain (Ne.symm other) (ih noPercent)

-----------------------------------------------------------------------------------------
-- Pieces of an encoding
-----------------------------------------------------------------------------------------

/-- A hexadecimal digit has its value, in either case. -/
theorem hexValue?_of_isHexDigit {n : Nat} (h : IsHexDigit n c)
    : hexValue? c = some n := by
  have small : ∀ n < 16, ("0123456789abcdef".toList[n]?).bind hexValue? = some n := by decide
  have capital : ∀ n < 16, ("0123456789ABCDEF".toList[n]?).bind hexValue? = some n := by decide
  rcases h with isSmall | isCapital
  · have bound : n < 16 := (List.getElem?_eq_some_iff.mp isSmall).1
    have value := small n bound
    rwa [isSmall, Option.bind_some] at value
  · have bound : n < 16 := (List.getElem?_eq_some_iff.mp isCapital).1
    have value := capital n bound
    rwa [isCapital, Option.bind_some] at value

/-- Two hexadecimal digits write a byte, the higher half first. -/
theorem hexByte?_of_isHexDigit {b : UInt8} {high low : Char}
    (isHigh : IsHexDigit (b.toNat / 16) high) (isLow : IsHexDigit (b.toNat % 16) low)
    : hexByte? high low = some b := by
  have whole : 16 * (b.toNat / 16) + b.toNat % 16 = b.toNat := Nat.div_add_mod b.toNat 16
  rw [hexByte?, hexValue?_of_isHexDigit isHigh, hexValue?_of_isHexDigit isLow]
  change some (UInt8.ofNat (16 * (b.toNat / 16) + b.toNat % 16)) = some b
  rw [whole, UInt8.ofNat_toNat]

/-- A character that is no percent sign stands for itself. -/
theorem pieces_plain (other : c ≠ '%') (rest : List Char)
    : pieces (c :: rest) = .plain c :: pieces rest := by
  rw [pieces]
  rintro high low more rfl
  exact absurd rfl other

/-- Encoded bytes are found one after the other, by induction on the encoding. -/
theorem pieces_bytes (h : EncodesBytes written bytes) (rest : List Char)
    : pieces (written ++ rest) = bytes.map .byte ++ pieces rest := by
  induction h with
  | nil => rfl
  | cons isHigh isLow _ ih =>
      simp only [List.cons_append, pieces, hexByte?_of_isHexDigit isHigh isLow, List.map_cons, ih]

/-- Bytes are kept until something else follows them. -/
theorem joinPieces_bytes (pending bytes : List UInt8) (rest : List Piece)
    : joinPieces pending (bytes.map .byte ++ rest)
      = joinPieces (bytes.reverse ++ pending) rest := by
  induction bytes generalizing pending with
  | nil => rfl
  | cons b bytes ih =>
      rw [List.map_cons, List.cons_append, joinPieces, ih, List.reverse_cons, List.append_assoc,
        List.singleton_append]

-----------------------------------------------------------------------------------------
-- Decoding
-----------------------------------------------------------------------------------------

/-- A text is encoded character by character. -/
theorem encodeUtf8_concat (text : List Char) (c : Char)
    : encodeUtf8 (text ++ [c]) = encodeUtf8 text ++ String.utf8EncodeChar c := by
  simp [encodeUtf8]

/-- What is joined is the text, if the pending bytes are those of a text before it. -/
theorem joinPieces_pieces (h : Encodes written text) (before : List Char)
    : joinPieces (encodeUtf8 before).reverse (pieces written) = before ++ text := by
  induction h generalizing before with
  | nil => rw [pieces, joinPieces, List.reverse_reverse, decodeLossy_encodeUtf8, List.append_nil]
  | plain other _ ih =>
      have later := ih []
      rw [encodeUtf8, List.flatMap_nil, List.reverse_nil] at later
      rw [pieces_plain other, joinPieces, List.reverse_reverse, decodeLossy_encodeUtf8, later,
        List.nil_append]
  | @escaped c _ _ text first _ ih =>
      have later := ih (before ++ [c])
      rw [encodeUtf8_concat, List.reverse_append] at later
      rw [pieces_bytes first, joinPieces_bytes, later, List.append_assoc, List.singleton_append]

/-- Every encoding of a text is decoded to it, and only once: what looks like an encoding in the
text stays as it is.
-/
theorem percentDecode_of_encodes (h : Encodes written text)
    : percentDecode written = text :=
  joinPieces_pieces h []

end DeltaFeed.Text
