import DeltaFeed.Time.Timestamp

/-! Loosely typed values: what a document holds, and what a caller may hand over in place of a
typed argument. Records keep the order of their fields, and no key occurs twice in a record
that was built by `put`.
-/

namespace DeltaFeed

/-- A loosely typed value. -/
inductive Value where
  | null
  | bool (b : Bool)
  | int (n : Int)
  | float (x : Decimal.Binary64)
  | text (s : String)
  | list (items : List Value)
  | record (fields : List (String × Value))
  | moment (t : Time.Timestamp)
  /-- The instant of the last successful sync. -/
  | lastSync (t : Time.Timestamp)
deriving Inhabited, Repr

def lastSyncName : String := "last_sync_instant"

/-- (put key value fields) sets the value of a key: in its place if the key is there, and at the
end if not.
-/
def put {κ α : Type} [DecidableEq κ] (key : κ) (value : α) : List (κ × α) → List (κ × α)
  | [] => [(key, value)]
  | (k, v) :: rest => if k = key then (key, value) :: rest else (k, v) :: put key value rest

def without {κ α : Type} [DecidableEq κ] (key : κ) (fields : List (κ × α)) : List (κ × α) :=
  fields.filter (fun entry => entry.1 ≠ key)

def keys {κ α : Type} (fields : List (κ × α)) : List κ :=
  fields.map (·.1)

@[simp] theorem keys_nil {κ α : Type}
    : keys ([] : List (κ × α)) = [] := rfl

@[simp] theorem keys_cons {κ α : Type} (entry : κ × α) (fields : List (κ × α))
    : keys (entry :: fields) = entry.1 :: keys fields := rfl

section Put

variable {κ α : Type} [DecidableEq κ]

/-- Setting a key looks up as the new value there, and as before everywhere else. -/
theorem lookup_put (key other : κ) (value : α) (fields : List (κ × α))
    : (put key value fields).lookup other
      = if other = key then some value else fields.lookup other := by
  induction fields with
  | nil =>
      by_cases h : other = key <;>
        simp [put, List.lookup_cons, List.lookup_nil, h, beq_eq_false_iff_ne.mpr]
  | cons entry rest ih =>
      obtain ⟨k, v⟩ := entry
      by_cases hk : k = key
      · subst hk
        by_cases h : other = k <;>
          simp [put, List.lookup_cons, h, beq_eq_false_iff_ne.mpr]
      · by_cases h : other = k
        · subst h
          simp [put, hk]
        · simp [put, hk, List.lookup_cons, beq_eq_false_iff_ne.mpr h, ih]

/-- Setting a key keeps the keys in order and adds it at the end if it is new. -/
theorem keys_put (key : κ) (value : α) (fields : List (κ × α))
    : keys (put key value fields)
      = if key ∈ keys fields then keys fields else keys fields ++ [key] := by
  induction fields with
  | nil => simp [put]
  | cons entry rest ih =>
      obtain ⟨k, v⟩ := entry
      by_cases hk : k = key
      · simp [put, hk]
      · by_cases h : key ∈ keys rest <;> simp [put, hk, Ne.symm hk, ih, h]

end Put

namespace Value

/-- (value.isVacant) holds of the values that count as nothing: null, false, zero, and the empty
text, list and record.
-/
def isVacant : Value → Bool
  | null => true
  | bool b => !b
  | int n => n == 0
  | float x => x.isZero
  | text s => s.isEmpty
  | list items => items.isEmpty
  | record fields => fields.isEmpty
  | moment _ => false
  | lastSync _ => false

def field? (value : Value) (key : String) : Option Value :=
  match value with
  | record fields => fields.lookup key
  | _ => none

def kindName : Value → String
  | null => "NoneType"
  | bool _ => "bool"
  | int _ => "int"
  | float _ => "float"
  | text _ => "str"
  | list _ => "list"
  | record _ => "dict"
  | moment _ => "datetime"
  | lastSync _ => "InstantsForIncrementalSync"

end Value

end DeltaFeed
