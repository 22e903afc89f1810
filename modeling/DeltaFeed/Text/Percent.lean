import DeltaFeed.Text.Utf8

/-! Percent encoding. A percent sign with two hexadecimal digits stands for a byte, and a run
of such bytes for the text that they encode; every other character stands for itself.
-/

namespace DeltaFeed.Text

/-- (hexValue? c) is the value of a hexadecimal digit of either case. -/
def hexValue? (c : Char) : Option Nat :=
  if '0' ≤ c && c ≤ '9' then some (c.toNat - 48)
  else if 'a' ≤ c && c ≤ 'f' then some (c.toNat - 87)
  else if 'A' ≤ c && c ≤ 'F' then some (c.toNat - 55)
  else none

/-- (hexByte? high low) is the byte that two hexadecimal digits write. -/
def hexByte? (high low : Char) : Option UInt8 := do
  let h ← hexValue? high
  let l ← hexValue? low
  return UInt8.ofNat (16 * h + l)

inductive Piece where
  | plain (c : Char)
  | byte (b : UInt8)
deriving DecidableEq, Repr

/-- (pieces text) splits a text into encoded bytes and plain characters. -/
def pieces : List Char → List Piece
  | [] => []
  | '%' :: high :: low :: rest =>
    match hexByte? high low with
    | some b => .byte b :: pieces rest
    | none => .plain '%' :: pieces (high :: low :: rest)
  | c :: rest => .plain c :: pieces rest

/-- (joinPieces pending pieces) decodes each maximal run of bytes, where the pending bytes, in
reverse, begin a run.
-/
def joinPieces (pending : List UInt8) : List Piece → List Char
  | [] => decodeLossy pending.reverse
  | .byte b :: rest => joinPieces (b :: pending) rest
  | .plain c :: rest => decodeLossy pending.reverse ++ c :: joinPieces [] rest

/-- (percentDecode text) is the text that a percent-encoded one stands for. -/
def percentDecode (text : List Char) : List Char :=
  joinPieces [] (pieces text)

end DeltaFeed.Text
