/-! UTF-8 with replacement. Well-formed sequences become characters, and each maximal part of
an ill-formed one becomes the replacement character.
-/

namespace DeltaFeed.Text

def replacement : Char := '\ufffd'

def follows (low high : UInt8) (b : UInt8) : Bool :=
  low ≤ b && b ≤ high

/-- (sequenceForm lead) is the number of bytes after the lead byte and the range of the first
of them; the others range from 80 to bf. Bytes that lead no sequence have no form.
-/
def sequenceForm (lead : UInt8) : Option (Nat × UInt8 × UInt8) :=
  if lead < 0x80 then some (0, 0, 0)
  else if lead < 0xc2 then none
  else if lead < 0xe0 then some (1, 0x80, 0xbf)
  else if lead = 0xe0 then some (2, 0xa0, 0xbf)
  else if lead = 0xed then some (2, 0x80, 0x9f)
  else if lead < 0xf0 then some (2, 0x80, 0xbf)
  else if lead = 0xf0 then some (3, 0x90, 0xbf)
  else if lead < 0xf4 then some (3, 0x80, 0xbf)
  else if lead = 0xf4 then some (3, 0x80, 0x8f)
  else none

def leadBits (lead : UInt8) : Nat :=
  if lead < 0x80 then lead.toNat
  else if lead < 0xe0 then lead.toNat % 32
  else if lead < 0xf0 then lead.toNat % 16
  else lead.toNat % 8

/-- (trailing count low high code bytes) reads the count bytes that end a sequence, the first
of them between low and high. It gives the code, if they are all there, and the bytes left.
-/
def trailing (count : Nat) (low high : UInt8) (code : Nat) (bytes : List UInt8)
    : Option Nat × { rest : List UInt8 // rest.length ≤ bytes.length } :=
  match count, bytes with
  | 0, bytes => (some code, ⟨bytes, Nat.le_refl _⟩)
  | _ + 1, [] => (none, ⟨[], Nat.le_refl _⟩)
  | count + 1, b :: rest =>
    if follows low high b then
      let (result, ⟨left, bound⟩) := trailing count 0x80 0xbf (code * 64 + b.toNat % 64) rest
      (result, ⟨left, Nat.le_succ_of_le bound⟩)
    else (none, ⟨b :: rest, Nat.le_refl _⟩)

/-- (decodeLossy bytes) is the text of the bytes, with a replacement character for each
maximal ill-formed part.
-/
def decodeLossy : List UInt8 → List Char
  | [] => []
  | lead :: rest =>
    match sequenceForm lead with
    | none => replacement :: decodeLossy rest
    | some (count, low, high) =>
      let (code, left) := trailing count low high (leadBits lead) rest
      (code.map Char.ofNat).getD replacement :: decodeLossy left.val
termination_by bytes => bytes.length
decreasing_by
  · simp
  · have := left.property
    simp only [List.length_cons]
    omega

def encodeUtf8 (text : List Char) : List UInt8 :=
  text.flatMap String.utf8EncodeChar

end DeltaFeed.Text
