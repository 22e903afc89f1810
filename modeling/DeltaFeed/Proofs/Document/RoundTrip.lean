import DeltaFeed.Document.Reader
import DeltaFeed.Proofs.Document.Scanning
import DeltaFeed.Proofs.Entries

/-! A document that was written is read as the value that it was written for. The text of a value
is scanned as the tokens of that value, and the tokens are read as the value, whatever is open
around it.
-/

namespace DeltaFeed.Document

mutual

/-- (Kept value) holds of the values that a document keeps: there are no floats and timestamps in
them, integers are not too large, and no record has a key twice.
-/
def Kept : Value → Prop
  | .null => True
  | .bool _ => True
  | .int n => leastInt ≤ n ∧ n ≤ greatestInt
  | .float _ => False
  | .text _ => True
  | .list items => KeptItems items
  | .record fields => (keys fields).Nodup ∧ KeptFields fields
  | .moment _ => False
  | .lastSync _ => False

def KeptItems : List Value → Prop
  | [] => True
  | item :: rest => Kept item ∧ KeptItems rest

def KeptField : String × Value → Prop
  | (_, value) => Kept value

def KeptFields : List (String × Value) → Prop
  | [] => True
  | field :: rest => KeptField field ∧ KeptFields rest

end

section Parts

variable {fields : List (String × Value)} {items : List Value} {bound : Nat}

/-- The items of a list can be written if each of them can. -/
theorem keptItems_iff
    : KeptItems items ↔ ∀ item ∈ items, Kept item := by
  induction items with
  | nil => simp [KeptItems]
  | cons item rest ih => rw [KeptItems, ih, List.forall_mem_cons]

/-- The fields of a record can be written if each of them can. -/
theorem keptFields_iff
    : KeptFields fields ↔ ∀ field ∈ fields, Kept field.2 := by
  induction fields with
  | nil => simp [KeptFields]
  | cons field rest ih =>
      obtain ⟨key, value⟩ := field
      rw [KeptFields, ih, List.forall_mem_cons, KeptField]

/-- The items of a list count one level more than the deepest of them. -/
theorem depthOfItems_le_iff
    : depthOfItems items ≤ bound ↔ ∀ item ∈ items, depth item + 1 ≤ bound := by
  induction items with
  | nil => simp [depthOfItems]
  | cons item rest ih => rw [depthOfItems, Nat.max_le, ih, List.forall_mem_cons]

/-- The fields of a record are as deep as the deepest of their values. -/
theorem depthOfFields_le_iff
    : depthOfFields fields ≤ bound ↔ ∀ field ∈ fields, depth field.2 ≤ bound := by
  induction fields with
  | nil => simp [depthOfFields]
  | cons field rest ih =>
      obtain ⟨key, value⟩ := field
      rw [depthOfFields, Nat.max_le, ih, List.forall_mem_cons, depthOfField]

end Parts

mutual

/-- (tokensOf value) are the tokens of a value. -/
def tokensOf : Value → List Token
  | .list items => .beginList :: tokensOfItems items ++ [.endList]
  | .record fields => .beginRecord :: tokensOfFields fields ++ [.endRecord]
  | value => [.scalar value]

def tokensOfItems : List Value → List Token
  | [] => []
  | [item] => tokensOf item
  | item :: rest => tokensOf item ++ .comma :: tokensOfItems rest

def tokensOfField : String × Value → List Token
  | (key, value) => .scalar (.text key) :: .colon :: tokensOf value

def tokensOfFields : List (String × Value) → List Token
  | [] => []
  | [field] => tokensOfField field
  | field :: rest => tokensOfField field ++ .comma :: tokensOfFields rest

end

-----------------------------------------------------------------------------------------
-- Scanning
-----------------------------------------------------------------------------------------

/-- A text that begins with a token goes on with the tokens of what is left. -/
theorem tokens_eq_cons {c : Char} {more left : List Char} {token : Token} {others : List Token}
    (solid : isSpace c = false) (first : token? (c :: more) = some (token, left))
    (later : tokens left = some others)
    : tokens (c :: more) = some (token :: others) := by
  rw [tokens, solid, if_neg Bool.false_ne_true]
  split
  case h_1 none => rw [first] at none; cases none
  case h_2 token' left' found =>
    rw [first] at found
    cases found
    rw [later, Option.map_some]

theorem delimited_comma {rest : List Char}
    : Delimited (',' :: rest) := by
  rintro c ⟨⟩
  exact .inl rfl

theorem delimited_endList {rest : List Char}
    : Delimited (']' :: rest) := by
  rintro c ⟨⟩
  exact .inr (.inl rfl)

theorem delimited_endRecord {rest : List Char}
    : Delimited ('}' :: rest) := by
  rintro c ⟨⟩
  exact .inr (.inr rfl)

/-- Two items or more are written one by one, with commas between them. -/
theorem writeItems_cons_eq_some {item next : Value} {rest : List Value} {text : List Char}
    (written : writeItems (item :: next :: rest) = some text)
    : ∃ first others,
        writeValue item = some first
        ∧ writeItems (next :: rest) = some others
        ∧ text = first ++ ',' :: others := by
  simp only [writeItems, Option.bind_eq_bind, Option.bind_eq_some_iff] at written
  obtain ⟨first, isFirst, others, isOthers, same⟩ := written
  exact ⟨first, others, isFirst, isOthers, (Option.some.inj same).symm⟩

/-- Two fields or more are written one by one, with commas between them. -/
theorem writeFields_cons_eq_some {field next : String × Value} {rest : List (String × Value)}
    {text : List Char} (written : writeFields (field :: next :: rest) = some text)
    : ∃ first others,
        writeField field = some first
        ∧ writeFields (next :: rest) = some others
        ∧ text = first ++ ',' :: others := by
  simp only [writeFields, Option.bind_eq_bind, Option.bind_eq_some_iff] at written
  obtain ⟨first, isFirst, others, isOthers, same⟩ := written
  exact ⟨first, others, isFirst, isOthers, (Option.some.inj same).symm⟩

/-- A written text is one token before those of the rest. -/
theorem tokens_writeText (s : String) {rest : List Char} {others : List Token}
    (later : tokens rest = some others)
    : tokens (writeText s ++ rest) = some (.scalar (.text s) :: others) := by
  have first := token?_writeText s rest
  rw [writeText, List.cons_append, List.cons_append] at first ⊢
  exact tokens_eq_cons (by decide) first later

/-- A written integer is one token, if what comes next ends it. -/
theorem tokens_writeInt {n : Int} {text rest : List Char} {others : List Token}
    (written : writeInt n = some text) (delimited : Delimited rest)
    (later : tokens rest = some others)
    : tokens (text ++ rest) = some (.scalar (.int n) :: others) := by
  have first := token?_writeInt written delimited
  obtain ⟨c, more, same, solid⟩ := exists_cons_of_writeInt written
  rw [same, List.cons_append] at first ⊢
  exact tokens_eq_cons solid first later

mutual

/-- The text of a value is scanned as its tokens. -/
theorem tokens_writeValue : ∀ {value : Value} {text rest : List Char} {others : List Token},
    Kept value → writeValue value = some text → Delimited rest → tokens rest = some others
    → tokens (text ++ rest) = some (tokensOf value ++ others)
  | .null, text, rest, others, _, written, _, later => by
      obtain rfl := Option.some.inj written
      exact tokens_eq_cons (by decide) rfl later
  | .bool true, text, rest, others, _, written, _, later => by
      obtain rfl := Option.some.inj written
      exact tokens_eq_cons (by decide) rfl later
  | .bool false, text, rest, others, _, written, _, later => by
      obtain rfl := Option.some.inj written
      exact tokens_eq_cons (by decide) rfl later
  | .int n, text, rest, others, _, written, delimited, later =>
      tokens_writeInt written delimited later
  | .float _, _, _, _, kept, _, _, _ => kept.elim
  | .text s, text, rest, others, _, written, _, later => by
      obtain rfl := Option.some.inj written
      exact tokens_writeText s later
  | .list items, text, rest, others, kept, written, _, later => by
      obtain ⟨body, inside, rfl⟩ := Option.map_eq_some_iff.mp written
      have closed : tokens (']' :: rest) = some (.endList :: others) :=
        tokens_eq_cons (by decide) rfl later
      have scanned := tokens_writeItems kept inside delimited_endList closed
      have opened : tokens ('[' :: (body ++ ']' :: rest)) = some (.beginList :: _) :=
        tokens_eq_cons (by decide) rfl scanned
      simpa [tokensOf] using opened
  | .record fields, text, rest, others, kept, written, _, later => by
      obtain ⟨body, inside, rfl⟩ := Option.map_eq_some_iff.mp written
      have closed : tokens ('}' :: rest) = some (.endRecord :: others) :=
        tokens_eq_cons (by decide) rfl later
      have scanned := tokens_writeFields kept.2 inside delimited_endRecord closed
      have opened : tokens ('{' :: (body ++ '}' :: rest)) = some (.beginRecord :: _) :=
        tokens_eq_cons (by decide) rfl scanned
      simpa [tokensOf] using opened
  | .moment _, _, _, _, kept, _, _, _ => kept.elim
  | .lastSync _, _, _, _, kept, _, _, _ => kept.elim

/-- The text of the items of a list is scanned as their tokens. -/
theorem tokens_writeItems : ∀ {items : List Value} {text rest : List Char} {others : List Token},
    KeptItems items → writeItems items = some text → Delimited rest → tokens rest = some others
    → tokens (text ++ rest) = some (tokensOfItems items ++ others)
  | [], text, rest, others, _, written, _, later => by
      obtain rfl := Option.some.inj written
      exact later
  | [item], text, rest, others, kept, written, delimited, later =>
      tokens_writeValue kept.1 written delimited later
  | item :: next :: more, text, rest, others, kept, written, delimited, later => by
      obtain ⟨first, body, isFirst, inside, rfl⟩ := writeItems_cons_eq_some written
      have scanned := tokens_writeItems kept.2 inside delimited later
      have comma : tokens (',' :: (body ++ rest)) = some (.comma :: _) :=
        tokens_eq_cons (by decide) rfl scanned
      simpa [tokensOfItems] using tokens_writeValue kept.1 isFirst delimited_comma comma

/-- The text of a field is scanned as its tokens. -/
theorem tokens_writeField : ∀ {field : String × Value} {text rest : List Char}
    {others : List Token},
    KeptField field → writeField field = some text → Delimited rest → tokens rest = some others
    → tokens (text ++ rest) = some (tokensOfField field ++ others)
  | (key, value), text, rest, others, kept, written, delimited, later => by
      obtain ⟨body, inside, rfl⟩ := Option.map_eq_some_iff.mp written
      have scanned := tokens_writeValue kept inside delimited later
      have colon : tokens (':' :: (body ++ rest)) = some (.colon :: _) :=
        tokens_eq_cons (by decide) rfl scanned
      simpa [tokensOfField] using tokens_writeText key colon

/-- The text of the fields of a record is scanned as their tokens. -/
theorem tokens_writeFields : ∀ {fields : List (String × Value)} {text rest : List Char}
    {others : List Token},
    KeptFields fields → writeFields fields = some text → Delimited rest
    → tokens rest = some others
    → tokens (text ++ rest) = some (tokensOfFields fields ++ others)
  | [], text, rest, others, _, written, _, later => by
      obtain rfl := Option.some.inj written
      exact later
  | [field], text, rest, others, kept, written, delimited, later =>
      tokens_writeField kept.1 written delimited later
  | field :: next :: more, text, rest, others, kept, written, delimited, later => by
      obtain ⟨first, body, isFirst, inside, rfl⟩ := writeFields_cons_eq_some written
      have scanned := tokens_writeFields kept.2 inside delimited later
      have comma : tokens (',' :: (body ++ rest)) = some (.comma :: _) :=
        tokens_eq_cons (by decide) rfl scanned
      simpa [tokensOfFields] using tokens_writeField kept.1 isFirst delimited_comma comma

end

-----------------------------------------------------------------------------------------
-- Reading
-----------------------------------------------------------------------------------------

/-- A token that can be taken leads on to the rest. -/
theorem readTokens_cons {position after : Position} {stack left : List Frame} {token : Token}
    (moved : step position stack token = some (after, left)) (rest : List Token)
    : readTokens position stack (token :: rest) = readTokens after left rest := by
  rw [readTokens, moved]

/-- A value begins with a token that ends no list. -/
theorem exists_tokensOf_eq_cons (value : Value)
    : ∃ token rest, tokensOf value = token :: rest ∧ token ≠ .endList := by
  cases value <;> exact ⟨_, _, rfl, nofun⟩

/-- The first item of a list is read like any other. -/
theorem readTokens_firstItem (value : Value) (stack : List Frame) (more : List Token)
    : readTokens .firstItem stack (tokensOf value ++ more)
      = readTokens .value (.list [] :: stack) (tokensOf value ++ more) := by
  obtain ⟨token, rest, same, notEnd⟩ := exists_tokensOf_eq_cons value
  have moved : step .firstItem stack token = step .value (.list [] :: stack) token := by
    cases token with
    | endList => exact absurd rfl notEnd
    | _ => rfl
  rw [same, List.cons_append, readTokens, readTokens, moved]

/-- The first key of a record is read like any other. -/
theorem readTokens_firstKey (field : String × Value) (stack : List Frame) (more : List Token)
    : readTokens .firstKey stack (tokensOfField field ++ more)
      = readTokens (.key []) stack (tokensOfField field ++ more) := by
  obtain ⟨key, value⟩ := field
  rw [tokensOfField, List.cons_append, readTokens_cons rfl, readTokens_cons rfl]

/-- The tokens of a list of items begin with those of its first item. -/
theorem tokensOfItems_cons (item : Value) (rest : List Value)
    : ∃ others, tokensOfItems (item :: rest) = tokensOf item ++ others := by
  cases rest with
  | nil => exact ⟨[], by rw [tokensOfItems, List.append_nil]⟩
  | cons next rest => exact ⟨_, rfl⟩

/-- The tokens of some fields begin with those of the first. -/
theorem tokensOfFields_cons (field : String × Value) (rest : List (String × Value))
    : ∃ others, tokensOfFields (field :: rest) = tokensOfField field ++ others := by
  cases rest with
  | nil => exact ⟨[], by rw [tokensOfFields, List.append_nil]⟩
  | cons next rest => exact ⟨_, rfl⟩

/-- A field with a new key comes last. -/
theorem put_of_nodup {fields rest : List (String × Value)} {field : String × Value}
    (distinct : (keys (fields ++ field :: rest)).Nodup)
    : put field.1 field.2 fields = fields ++ [field] := by
  refine put_of_not_mem_keys fun member => ?_
  have apart := (List.nodup_append.mp (by simpa [keys] using distinct)).2.2
  exact apart _ member _ List.mem_cons_self rfl

mutual

/-- The tokens of a value are read as that value, whatever is open around it. -/
theorem readTokens_tokensOf : ∀ {value : Value} {stack : List Frame} (more : List Token),
    Kept value → stack.length + depth value < maxDepth
    → readTokens .value stack (tokensOf value ++ more) = readTokens (.after value) stack more
  | .null, _, _, _, _ => rfl
  | .bool _, _, _, _, _ => rfl
  | .int _, _, _, _, _ => rfl
  | .float _, _, _, kept, _ => kept.elim
  | .text _, _, _, _, _ => rfl
  | .list [], stack, more, _, room => by
      have opened : step .value stack .beginList = some (.firstItem, stack) := by
        simp only [step, open?, if_pos (Nat.lt_of_le_of_lt (Nat.le_add_right _ _) room),
          Option.map_some]
      rw [tokensOf, List.cons_append, List.cons_append, readTokens_cons opened]
      exact readTokens_cons rfl more
  | .list (item :: rest), stack, more, kept, room => by
      have opened : step .value stack .beginList = some (.firstItem, stack) := by
        simp only [step, open?, if_pos (Nat.lt_of_le_of_lt (Nat.le_add_right _ _) room),
          Option.map_some]
      obtain ⟨others, first⟩ := tokensOfItems_cons item rest
      have inside := readTokens_tokensOfItems [] stack more (List.cons_ne_nil item rest) kept room
      rw [tokensOf, List.cons_append, List.cons_append, readTokens_cons opened, List.append_assoc,
        first, List.append_assoc, readTokens_firstItem, ← List.append_assoc, ← first]
      exact inside
  | .record [], stack, more, _, room => by
      have opened : step .value stack .beginRecord = some (.firstKey, stack) := by
        simp only [step, open?, if_pos (Nat.lt_of_le_of_lt (Nat.le_add_right _ _) room),
          Option.map_some]
      rw [tokensOf, List.cons_append, List.cons_append, readTokens_cons opened]
      exact readTokens_cons rfl more
  | .record (field :: rest), stack, more, kept, room => by
      have opened : step .value stack .beginRecord = some (.firstKey, stack) := by
        simp only [step, open?, if_pos (Nat.lt_of_le_of_lt (Nat.le_add_right _ _) room),
          Option.map_some]
      obtain ⟨others, first⟩ := tokensOfFields_cons field rest
      have inside := readTokens_tokensOfFields [] stack more (List.cons_ne_nil field rest) kept.2
        kept.1 (by rw [depth] at room; omega)
      rw [tokensOf, List.cons_append, List.cons_append, readTokens_cons opened, List.append_assoc,
        first, List.append_assoc, readTokens_firstKey, ← List.append_assoc, ← first]
      exact inside
  | .moment _, _, _, kept, _ => kept.elim
  | .lastSync _, _, _, kept, _ => kept.elim

/-- The tokens of the items of a list are read after those that were read before. -/
theorem readTokens_tokensOfItems : ∀ {items : List Value} (done : List Value)
    (stack : List Frame) (more : List Token),
    items ≠ [] → KeptItems items → stack.length + depthOfItems items < maxDepth
    → readTokens .value (.list done :: stack) (tokensOfItems items ++ .endList :: more)
      = readTokens (.after (.list (done.reverse ++ items))) stack more
  | [], _, _, _, nonempty, _, _ => absurd rfl nonempty
  | [item], done, stack, more, _, kept, room => by
      have inside : (Frame.list done :: stack).length + depth item < maxDepth := by
        rw [depthOfItems] at room
        rw [List.length_cons]
        omega
      rw [tokensOfItems, readTokens_tokensOf _ kept.1 inside, readTokens_cons rfl,
        List.reverse_cons]
  | item :: next :: rest, done, stack, more, _, kept, room => by
      have inside : (Frame.list done :: stack).length + depth item < maxDepth := by
        rw [depthOfItems] at room
        rw [List.length_cons]
        omega
      have later := readTokens_tokensOfItems (item :: done) stack more (List.cons_ne_nil next rest)
        kept.2 (by rw [depthOfItems] at room; omega)
      rw [tokensOfItems, List.append_assoc, List.cons_append, readTokens_tokensOf _ kept.1 inside,
        readTokens_cons rfl, later, List.reverse_cons, List.append_assoc, List.singleton_append]
      nofun

/-- The tokens of a field are read up to the end of its value. -/
theorem readTokens_tokensOfField : ∀ {field : String × Value} (done : List (String × Value))
    (stack : List Frame) (more : List Token),
    KeptField field → stack.length + 1 + depthOfField field < maxDepth
    → readTokens (.key done) stack (tokensOfField field ++ more)
      = readTokens (.after field.2) (.field done field.1 :: stack) more
  | (key, value), done, stack, more, kept, room => by
      have inside : (Frame.field done key :: stack).length + depth value < maxDepth := room
      rw [tokensOfField, List.cons_append, List.cons_append, readTokens_cons rfl,
        readTokens_cons rfl, readTokens_tokensOf more kept inside]

/-- The tokens of the fields of a record are read after those that were read before. -/
theorem readTokens_tokensOfFields : ∀ {fields : List (String × Value)}
    (done : List (String × Value)) (stack : List Frame) (more : List Token),
    fields ≠ [] → KeptFields fields → (keys (done ++ fields)).Nodup
    → stack.length + 1 + depthOfFields fields < maxDepth
    → readTokens (.key done) stack (tokensOfFields fields ++ .endRecord :: more)
      = readTokens (.after (.record (done ++ fields))) stack more
  | [], _, _, _, nonempty, _, _, _ => absurd rfl nonempty
  | [field], done, stack, more, _, kept, distinct, room => by
      have inside : stack.length + 1 + depthOfField field < maxDepth := by
        rw [depthOfFields] at room
        omega
      rw [tokensOfFields, readTokens_tokensOfField done stack _ kept.1 inside,
        readTokens_cons rfl, ← put_of_nodup distinct]
  | field :: next :: rest, done, stack, more, _, kept, distinct, room => by
      have inside : stack.length + 1 + depthOfField field < maxDepth := by
        rw [depthOfFields] at room
        omega
      have later := readTokens_tokensOfFields (done ++ [field]) stack more
        (List.cons_ne_nil next rest) kept.2 (by simpa using distinct)
        (by rw [depthOfFields] at room; omega)
      rw [tokensOfFields, List.append_assoc, List.cons_append,
        readTokens_tokensOfField done stack _ kept.1 inside, readTokens_cons rfl,
        put_of_nodup distinct, later, List.append_assoc, List.singleton_append]
      nofun

end

-----------------------------------------------------------------------------------------
-- What is written
-----------------------------------------------------------------------------------------

/-- (Printed text) says that a text has no control characters, so that it stays on one line. -/
def Printed (text : List Char) : Prop :=
  ∀ c ∈ text, 0x20 ≤ c.toNat

/-- What is printed after what is printed is printed. -/
theorem Printed.append {text more : List Char} (first : Printed text) (later : Printed more)
    : Printed (text ++ more) := by
  intro c member
  rcases List.mem_append.mp member with member | member
  · exact first c member
  · exact later c member

theorem Printed.cons {c : Char} {text : List Char} (first : 0x20 ≤ c.toNat)
    (later : Printed text)
    : Printed (c :: text) :=
  List.forall_mem_cons.mpr ⟨first, later⟩

theorem Printed.nil
    : Printed [] := nofun

theorem toNat_of_isDigit {c : Char} (digit : c.isDigit = true)
    : 0x20 ≤ c.toNat := by
  have range := (Char.isDigit_iff_toNat.mp digit).1
  exact Nat.le_trans (by decide) range

/-- An escape is printed, also that of a character that is not. -/
theorem printed_escape (c : Char)
    : Printed (escape c) := by
  have digits : ∀ n < 16, 0x20 ≤ (Nat.digitChar n).toNat := by decide
  unfold escape
  split
  case h_8 =>
    split
    case isTrue control =>
      have high := digits (c.toNat / 16) (by omega)
      have low := digits (c.toNat % 16) (by omega)
      simpa [Printed] using ⟨high, low⟩
    case isFalse plain => simpa [Printed] using plain
  all_goals simp [Printed]

/-- A written text is printed, character by character. -/
theorem printed_writeText (s : String)
    : Printed (writeText s) := by
  have body : Printed (s.toList.flatMap escape) := by
    intro c member
    obtain ⟨d, _, written⟩ := List.mem_flatMap.mp member
    exact printed_escape d c written
  exact (body.append (.cons (by decide) .nil)).cons (by decide)

/-- The decimal form of a number is printed. -/
theorem printed_decimal (n : Int)
    : Printed (Text.decimal n).toList := by
  have digits (n : Nat) : Printed (Nat.toDigits 10 n) :=
    fun _ member =>
      toNat_of_isDigit (Nat.isDigit_of_mem_toDigits (by decide) (by decide) member)
  cases n with
  | ofNat n =>
      rw [Text.decimal, String.toList_ofList]
      exact digits n
  | negSucc n =>
      rw [Text.decimal, String.toList_ofList]
      exact (digits (n + 1)).cons (by decide)

mutual

/-- A value that is kept is written on one line. -/
theorem exists_writeValue : ∀ {value : Value}, Kept value
    → ∃ text, writeValue value = some text ∧ Printed text
  | .null, _ => ⟨_, rfl, by simp [Printed]⟩
  | .bool true, _ => ⟨_, rfl, by simp [Printed]⟩
  | .bool false, _ => ⟨_, rfl, by simp [Printed]⟩
  | .int n, kept => by
      have range : (-9223372036854775808 ≤ n && n ≤ 18446744073709551615) = true := by
        rw [Bool.and_eq_true, decide_eq_true_eq, decide_eq_true_eq]
        exact kept
      exact ⟨_, if_pos range, printed_decimal n⟩
  | .float _, kept => kept.elim
  | .text s, _ => ⟨_, rfl, printed_writeText s⟩
  | .list _, kept => by
      obtain ⟨body, written, printed⟩ := exists_writeItems kept
      exact ⟨_, by rw [writeValue, written]; rfl,
        (printed.append (.cons (by decide) .nil)).cons (by decide)⟩
  | .record _, kept => by
      obtain ⟨body, written, printed⟩ := exists_writeFields kept.2
      exact ⟨_, by rw [writeValue, written]; rfl,
        (printed.append (.cons (by decide) .nil)).cons (by decide)⟩
  | .moment _, kept => kept.elim
  | .lastSync _, kept => kept.elim

theorem exists_writeItems : ∀ {items : List Value}, KeptItems items
    → ∃ text, writeItems items = some text ∧ Printed text
  | [], _ => ⟨_, rfl, .nil⟩
  | [_], kept => exists_writeValue kept.1
  | _ :: _ :: _, kept => by
      obtain ⟨first, writtenFirst, printedFirst⟩ := exists_writeValue kept.1
      obtain ⟨body, written, printed⟩ := exists_writeItems kept.2
      refine ⟨first ++ ',' :: body, ?_, printedFirst.append (printed.cons (by decide))⟩
      simp [writeItems, writtenFirst, written]

theorem exists_writeField : ∀ {field : String × Value}, KeptField field
    → ∃ text, writeField field = some text ∧ Printed text
  | (key, _), kept => by
      obtain ⟨body, written, printed⟩ := exists_writeValue kept
      exact ⟨_, by rw [writeField, written]; rfl,
        (printed_writeText key).append (printed.cons (by decide))⟩

theorem exists_writeFields : ∀ {fields : List (String × Value)}, KeptFields fields
    → ∃ text, writeFields fields = some text ∧ Printed text
  | [], _ => ⟨_, rfl, .nil⟩
  | [_], kept => exists_writeField kept.1
  | _ :: _ :: _, kept => by
      obtain ⟨first, writtenFirst, printedFirst⟩ := exists_writeField kept.1
      obtain ⟨body, written, printed⟩ := exists_writeFields kept.2
      refine ⟨first ++ ',' :: body, ?_, printedFirst.append (printed.cons (by decide))⟩
      simp [writeFields, writtenFirst, written]

end

-----------------------------------------------------------------------------------------
-- Whole documents
-----------------------------------------------------------------------------------------

/-- A value that is written is read back, if it is not too deep. -/
theorem read_writeValue {value : Value} {text : List Char} (kept : Kept value)
    (shallow : depth value < maxDepth) (written : writeValue value = some text)
    : read (String.ofList text) = some value := by
  have scanned : tokens (text ++ []) = some (tokensOf value ++ []) :=
    tokens_writeValue kept written nofun (by rw [tokens])
  have all : readTokens .value [] (tokensOf value ++ []) = readTokens (.after value) [] [] :=
    readTokens_tokensOf [] kept (by simpa using shallow)
  rw [List.append_nil] at scanned
  rw [read, String.toList_ofList, scanned, Option.bind_some, all]
  rfl

/-- A value that is kept and not too deep is written on one line, and read as what it was. -/
theorem exists_write {value : Value} (kept : Kept value) (shallow : depth value ≤ maxWrittenDepth)
    : ∃ text, write value = .ok text ∧ read text = some value ∧ Printed text.toList := by
  obtain ⟨text, written, printed⟩ := exists_writeValue kept
  refine ⟨String.ofList text, ?_, ?_, ?_⟩
  · rw [write, if_neg (by omega), written]
  · refine read_writeValue kept (Nat.lt_of_le_of_lt shallow (by decide)) written
  · rwa [String.toList_ofList]

/-- The text of a record is in braces. -/
theorem braces_of_write {fields : List (String × Value)} {text : String}
    (written : write (.record fields) = .ok text)
    : ∃ body, text.toList = '{' :: body ++ ['}'] := by
  unfold write at written
  split at written
  · cases written
  · split at written
    case h_1 chars found =>
      cases written
      obtain ⟨body, _, rfl⟩ := Option.map_eq_some_iff.mp found
      exact ⟨body, by rw [String.toList_ofList]⟩
    case h_2 => cases written

end DeltaFeed.Document
