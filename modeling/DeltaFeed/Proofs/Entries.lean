import DeltaFeed.Value

/-! Entries by key: what is found after entries were set or dropped, and which keys there are.
Entries with distinct keys are told by what is found under each key, apart from their order.
-/

namespace DeltaFeed

variable {κ α : Type}

theorem mem_keys_filter {fields : List (κ × α)} {p : κ → Bool} {key : κ}
    : key ∈ keys (fields.filter fun entry => p entry.1) ↔ key ∈ keys fields ∧ p key = true := by
  simp only [keys, List.mem_map, List.mem_filter]
  constructor
  · intro listed
    rcases listed with ⟨entry, ⟨member, passes⟩, rfl⟩
    exact ⟨⟨entry, member, rfl⟩, passes⟩
  · intro listed
    rcases listed with ⟨⟨entry, member, rfl⟩, passes⟩
    exact ⟨entry, ⟨member, passes⟩, rfl⟩

variable [DecidableEq κ]

/-- Nothing is found under what is no key. -/
theorem lookup_eq_none_of_not_mem_keys {fields : List (κ × α)} {key : κ}
    (absent : key ∉ keys fields)
    : fields.lookup key = none := by
  refine List.lookup_eq_none_iff.mpr fun entry member => bne_iff_ne.mpr ?_
  rintro rfl
  exact absent (List.mem_map_of_mem member)

/-- A key is there exactly if something is found under it. -/
theorem contains_keys (fields : List (κ × α)) (key : κ)
    : (keys fields).contains key = (fields.lookup key).isSome := by
  induction fields with
  | nil => rfl
  | cons entry rest ih =>
      obtain ⟨k, value⟩ := entry
      rw [keys_cons, List.contains_cons, List.lookup_cons, ih]
      cases key == k <;> rfl

/-- Taking out a key leaves the values of the others. -/
theorem lookup_without (key other : κ) (fields : List (κ × α))
    : (without key fields).lookup other
      = if other = key then none else fields.lookup other := by
  induction fields with
  | nil => simp [without]
  | cons entry rest ih =>
      obtain ⟨k, value⟩ := entry
      by_cases same : k = key
      · rw [without, List.filter_cons_of_neg (by simpa using same)]
        refine ih.trans ?_
        by_cases here : other = key
        · simp [here]
        · simp [here, List.lookup_cons, beq_eq_false_iff_ne.mpr (same ▸ here : other ≠ k)]
      · rw [without, List.filter_cons_of_pos (by simpa using same), List.lookup_cons,
          List.lookup_cons]
        by_cases here : other = k
        · simp [here, same]
        · simpa [without, beq_eq_false_iff_ne.mpr here] using ih

/-- Taking out a key leaves the other keys. -/
theorem keys_without (key : κ) (fields : List (κ × α))
    : keys (without key fields) = (keys fields).filter (· ≠ key) := by
  simp [keys, without, List.filter_map, Function.comp_def]

/-- Distinct keys stay so when one is taken out. -/
theorem nodup_keys_without {fields : List (κ × α)} (h : (keys fields).Nodup) (key : κ)
    : (keys (without key fields)).Nodup := by
  rw [keys_without]
  exact h.filter _

/-- Distinct keys stay so when a value is put. -/
theorem nodup_keys_put {fields : List (κ × α)} (h : (keys fields).Nodup) (key : κ) (value : α)
    : (keys (put key value fields)).Nodup := by
  rw [keys_put]
  split
  case isTrue => exact h
  case isFalse new =>
    refine List.nodup_append.mpr ⟨h, by simp, ?_⟩
    intro k there other isKey same
    subst same
    exact new (List.mem_singleton.mp isKey ▸ there)

/-- Putting a value adds its key, if it was not there. -/
theorem mem_keys_put {fields : List (κ × α)} {key other : κ} {value : α}
    : other ∈ keys (put key value fields) ↔ other = key ∨ other ∈ keys fields := by
  rw [keys_put]
  split
  case isTrue there =>
    constructor
    · exact Or.inr
    · intro newOrOld
      rcases newOrOld with rfl | member
      · exact there
      · exact member
  case isFalse => rw [List.mem_append, List.mem_singleton, or_comm]

/-- An entry with a new key comes last. -/
theorem put_of_not_mem_keys {fields : List (κ × α)} {key : κ} {value : α}
    (new : key ∉ keys fields)
    : put key value fields = fields ++ [(key, value)] := by
  induction fields with
  | nil => rfl
  | cons entry rest ih =>
      obtain ⟨first, others⟩ := not_or.mp (mt List.mem_cons.mpr new)
      rw [put, if_neg (Ne.symm first), ih others, List.cons_append]

/-- Where a test of the keys drops entries, the others are found as before. -/
theorem lookup_filter_keys (p : κ → Bool) (key : κ) (fields : List (κ × α))
    : (fields.filter fun entry => p entry.1).lookup key
      = if p key then fields.lookup key else none := by
  induction fields with
  | nil => simp
  | cons entry rest ih =>
      obtain ⟨k, value⟩ := entry
      by_cases same : key = k
      · subst same
        by_cases passes : p key = true
        · simp [passes]
        · rw [List.filter_cons_of_neg (by simpa using passes), ih, if_neg passes, if_neg passes]
      · have other : (key == k) = false := beq_eq_false_iff_ne.mpr same
        rw [List.lookup_cons, other, ← ih, List.filter_cons]
        split
        · rw [List.lookup_cons, other]
        · rfl

section Setting

variable {β : Type} {key : β → κ} {value : β → α}

/-- Of several items that set one key the last counts. -/
theorem lookup_foldl_put (items : List β) (fields : List (κ × α)) (k : κ)
    : (items.foldl (fun fields item => put (key item) (value item) fields) fields).lookup k
      = ((items.filter (key · = k)).getLast?.map value).or (fields.lookup k) := by
  induction items generalizing fields with
  | nil => simp
  | cons item rest ih =>
      rw [List.foldl_cons, ih, lookup_put, List.filter_cons]
      by_cases same : k = key item
      · subst same
        cases last : (rest.filter (key · = key item)).getLast? <;> simp [List.getLast?_cons, last]
      · simp [same, Ne.symm same]

/-- Distinct keys stay so when any values are put, by induction on them. -/
theorem nodup_keys_foldl_put {fields : List (κ × α)} (h : (keys fields).Nodup) (items : List β)
    : (keys
        (items.foldl (fun fields item => put (key item) (value item) fields) fields)).Nodup := by
  induction items generalizing fields with
  | nil => exact h
  | cons item rest ih => exact ih (nodup_keys_put h (key item) (value item))

end Setting

/-- Where no key occurs twice, an entry is what is found under its key. -/
theorem mem_iff_lookup {fields : List (κ × α)} (h : (keys fields).Nodup) {key : κ} {value : α}
    : (key, value) ∈ fields ↔ fields.lookup key = some value := by
  induction fields with
  | nil => simp
  | cons entry rest ih =>
      obtain ⟨k, first⟩ := entry
      obtain ⟨new, distinct⟩ := List.nodup_cons.mp h
      by_cases same : key = k
      · subst same
        have absent : (key, value) ∉ rest := fun there =>
          new (List.mem_map.mpr ⟨_, there, rfl⟩)
        simp [absent, eq_comm]
      · simp [List.lookup_cons, beq_eq_false_iff_ne.mpr same, same, ih distinct]

/-- Entries with distinct keys differ only in their order if the same is found under each key. -/
theorem perm_of_lookup_eq {fields others : List (κ × α)} (distinct : (keys fields).Nodup)
    (distinctOthers : (keys others).Nodup)
    (same : ∀ key, fields.lookup key = others.lookup key)
    : fields.Perm others := by
  have apart {entries : List (κ × α)} (distinct : (keys entries).Nodup) : entries.Nodup :=
    List.Pairwise.of_map _ (fun _ _ => ne_of_apply_ne Prod.fst) distinct
  refine (List.perm_ext_iff_of_nodup (apart distinct) (apart distinctOthers)).mpr fun entry => ?_
  obtain ⟨key, value⟩ := entry
  rw [mem_iff_lookup distinct, mem_iff_lookup distinctOthers, same]

end DeltaFeed
