import DeltaFeed.Document.Token

/-! Documents from tokens. The reader keeps what is open around the current position on a stack,
so that it handles one token at a time.
-/

namespace DeltaFeed.Document

/-- A list or record that is open around a value. -/
inductive Frame where
  /-- A list with the items before the value, the last one first. -/
  | list (items : List Value)
  /-- A record with the fields before the value, and the key of the value. -/
  | field (fields : List (String × Value)) (key : String)

/-- What the reader is at. -/
inductive Position where
  /-- Before a value. -/
  | value
  /-- After the beginning of a list. -/
  | firstItem
  /-- After the beginning of a record. -/
  | firstKey
  /-- After the comma in a record. -/
  | key (fields : List (String × Value))
  /-- After a key. -/
  | colon (fields : List (String × Value)) (key : String)
  /-- After a value. -/
  | after (value : Value)

def maxDepth : Nat := 1024

/-- (open? stack token) is the position after a token that begins a value. -/
def open? (stack : List Frame) (token : Token) : Option Position :=
  match token with
  | .scalar value => some (.after value)
  | .beginList => if stack.length < maxDepth then some .firstItem else none
  | .beginRecord => if stack.length < maxDepth then some .firstKey else none
  | _ => none

/-- (close? value stack token) is what a token makes of a value that is complete: the position
after it and the stack that is left.
-/
def close? (value : Value) (stack : List Frame) (token : Token)
    : Option (Position × List Frame) :=
  match stack, token with
  | .list items :: outer, .comma => some (.value, .list (value :: items) :: outer)
  | .list items :: outer, .endList => some (.after (.list (value :: items).reverse), outer)
  | .field fields key :: outer, .comma => some (.key (put key value fields), outer)
  | .field fields key :: outer, .endRecord =>
    some (.after (.record (put key value fields)), outer)
  | _, _ => none

def step (position : Position) (stack : List Frame) (token : Token)
    : Option (Position × List Frame) :=
  match position, token with
  | .firstItem, .endList => some (.after (.list []), stack)
  | .firstItem, token => (open? (.list [] :: stack) token).map (·, .list [] :: stack)
  | .value, token => (open? stack token).map (·, stack)
  | .firstKey, .endRecord => some (.after (.record []), stack)
  | .firstKey, .scalar (.text key) => some (.colon [] key, stack)
  | .key fields, .scalar (.text key) => some (.colon fields key, stack)
  | .colon fields key, .colon => some (.value, .field fields key :: stack)
  | .after value, token => close? value stack token
  | _, _ => none

def readTokens (position : Position) (stack : List Frame) : List Token → Option Value
  | [] =>
    match position, stack with
    | .after value, [] => some value
    | _, _ => none
  | token :: rest =>
    match step position stack token with
    | some (position, stack) => readTokens position stack rest
    | none => none

/-- (read text) is the value that a document holds. The last of several fields with one key
counts.
-/
def read (text : String) : Option Value :=
  (tokens text.toList).bind (readTokens .value [])

end DeltaFeed.Document
