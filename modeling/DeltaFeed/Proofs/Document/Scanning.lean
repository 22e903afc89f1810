import DeltaFeed.Document.Token
import DeltaFeed.Document.Writer
import DeltaFeed.Proofs.Text.Digits
import Mathlib.Data.List.Basic

/-! What is written of texts and integers is read as one token each. A text ends at its closing
quote, whatever follows; an integer ends before the bracket or the comma that follows it.
-/

namespace DeltaFeed.Document

-----------------------------------------------------------------------------------------
-- Texts
-----------------------------------------------------------------------------------------

/-- The four digits of an escaped control character write its code. -/
theorem hexUnit_control {n : Nat} (control : n < 32)
    : hexUnit '0' '0' (Nat.digitChar (n / 16)) (Nat.digitChar (n % 16)) = some n := by
  have all : ∀ n < 32,
      hexUnit '0' '0' (Nat.digitChar (n / 16)) (Nat.digitChar (n % 16)) = some n := by
    decide
  exact all n control

/-- What is written of a character is read as that character. -/
theorem textBody_escape (c : Char) (rest : List Char)
    : textBody none (escape c ++ rest)
      = (textBody none rest).map fun (body, left) => (c :: body, left) := by
  unfold escape
  split
  case h_8 notQuote notBackslash _ _ _ _ _ =>
    split
    case isTrue control =>
      have notHigh : isHigh c.toNat = false := by simp [isHigh]; omega
      have notLow : isLow c.toNat = false := by simp [isLow]; omega
      refine (textBody.eq_3 _ _ _ _ rest _ (hexUnit_control control)).trans ?_
      rw [notHigh, notLow, Char.ofNat_toNat]
      rfl
    case isFalse plain =>
      rw [List.singleton_append, textBody.eq_7 c rest
        (fun _ _ _ _ _ same => absurd same notBackslash)
        (fun _ _ same => absurd same notBackslash) notQuote, if_neg]
      simpa [plain] using notBackslash
  all_goals simp [textBody, escaped?]

/-- What is written of a text is read up to its closing quote. -/
theorem textBody_flatMap_escape (text rest : List Char)
    : textBody none (text.flatMap escape ++ '"' :: rest) = some (text, rest) := by
  induction text with
  | nil => exact textBody.eq_6 rest
  | cons c text ih =>
      rw [List.flatMap_cons, List.append_assoc, textBody_escape, ih]
      rfl

/-- A written text is scanned as one token. -/
theorem token?_writeText (s : String) (rest : List Char)
    : token? (writeText s ++ rest) = some (.scalar (.text s), rest) := by
  have body : writeText s ++ rest = '"' :: (s.toList.flatMap escape ++ '"' :: rest) := by
    simp [writeText]
  rw [body, token?, textBody_flatMap_escape, Option.map_some]
  dsimp only
  rw [String.ofList_toList]

-----------------------------------------------------------------------------------------
-- Integers
-----------------------------------------------------------------------------------------

/-- (Delimited rest) says that a rest of a document begins like what may follow a value. -/
def Delimited (rest : List Char) : Prop :=
  ∀ c, rest.head? = some c → c = ',' ∨ c = ']' ∨ c = '}'

theorem isAsciiDigit_of_isDigit {c : Char} (h : c.isDigit = true)
    : Text.isAsciiDigit c = true := by
  have range : '0' ≤ c ∧ c ≤ '9' := Char.isDigit_iff_toNat.mp h
  simpa [Text.isAsciiDigit] using range

/-- Only zero is written with a leading zero. -/
theorem head_toDigits_ne_zero {n : Nat} (positive : 0 < n)
    : (Nat.toDigits 10 n).head? ≠ some '0' := by
  induction n using Nat.strongRecOn with
  | ind n ih =>
      by_cases small : n < 10
      · have all : ∀ n < 10, 0 < n → (Nat.toDigits 10 n).head? ≠ some '0' := by decide
        exact all n small positive
      · have first := ih (n / 10) (by omega) (by omega)
        rw [Nat.toDigits_of_base_le (by decide) (by omega), List.head?_append]
        cases digits : Nat.toDigits 10 (n / 10) with
        | nil => exact absurd digits Nat.toDigits_ne_nil
        | cons c more =>
            rw [digits] at first
            exact first

/-- A digit does not follow a value. -/
theorem not_isAsciiDigit_of_delimited {rest : List Char} (delimited : Delimited rest) {c : Char}
    (begins : rest.head? = some c)
    : Text.isAsciiDigit c = false := by
  rcases delimited c begins with rfl | rfl | rfl <;> decide

/-- A run of digits ends where they do. -/
theorem digitRun_append {digits rest : List Char} (isDigit : ∀ c ∈ digits, c.isDigit = true)
    (delimited : Delimited rest)
    : digitRun (digits ++ rest) = (digits, rest) := by
  have all : ∀ c ∈ digits, Text.isAsciiDigit c = true :=
    fun c member => isAsciiDigit_of_isDigit (isDigit c member)
  rw [digitRun, List.takeWhile_append_of_pos all, List.dropWhile_append_of_pos all]
  cases rest with
  | nil => simp
  | cons c more =>
      have stop := not_isAsciiDigit_of_delimited delimited (c := c) rfl
      rw [List.takeWhile_cons_of_neg (by simp [stop]), List.dropWhile_cons_of_neg (by simp [stop]),
        List.append_nil]

/-- The digits of a number are read up to what follows a value. -/
theorem wholePart_toDigits (n : Nat) {rest : List Char} (delimited : Delimited rest)
    : wholePart (Nat.toDigits 10 n ++ rest) = some (Nat.toDigits 10 n, rest) := by
  have digits : ∀ c ∈ Nat.toDigits 10 n, c.isDigit = true :=
    fun _ => Nat.isDigit_of_mem_toDigits (by decide) (by decide)
  rw [wholePart, digitRun_append digits delimited]
  dsimp only
  split
  case h_1 none => exact absurd none Nat.toDigits_ne_nil
  case h_2 next more leading =>
    rcases Nat.eq_zero_or_pos n with rfl | positive
    · cases leading
    · exact absurd (by rw [leading]; rfl) (head_toDigits_ne_zero positive)
  case h_3 => rfl

/-- A number that has ended has no fraction. -/
theorem fractionPart_delimited {rest : List Char} (delimited : Delimited rest)
    : fractionPart rest = some (none, rest) := by
  unfold fractionPart
  split
  case h_1 more => rcases delimited '.' rfl with h | h | h <;> cases h
  case h_2 => rfl

/-- A number that has ended has no exponent. -/
theorem exponentPart_delimited {rest : List Char} (delimited : Delimited rest)
    : exponentPart rest = some (none, rest) := by
  cases rest with
  | nil => rfl
  | cons c more =>
      have noExponent : ¬(decide (c = 'e') || decide (c = 'E')) = true := by
        rcases delimited c rfl with rfl | rfl | rfl <;> decide
      rw [exponentPart, if_neg noExponent]

/-- The number that is read is the one that was written. -/
theorem numberValue_toDigits {negative : Bool} {n : Nat}
    (least : leastInt ≤ Text.applySign negative n)
    (greatest : Text.applySign negative n ≤ greatestInt)
    : numberValue negative (Nat.toDigits 10 n) none none
      = some (.int (Text.applySign negative n)) := by
  simp only [numberValue, number, Nat.ofDigitChars_ten_toDigits]
  rw [if_pos (by simp [least, greatest])]

/-- The decimal form of an integer in range is scanned as that integer. -/
theorem numberToken_decimal {n : Int} (least : leastInt ≤ n) (greatest : n ≤ greatestInt)
    {rest : List Char} (delimited : Delimited rest)
    : numberToken ((Text.decimal n).toList ++ rest) = some (.int n, rest) := by
  cases n with
  | ofNat n =>
      have noSign : ∀ more, Nat.toDigits 10 n ++ rest ≠ '-' :: more := by
        intro more same
        obtain ⟨c, digits, written⟩ := List.exists_cons_of_ne_nil (Nat.toDigits_ne_nil (n := n))
        rw [written] at same
        have digit : c.isDigit = true :=
          Nat.isDigit_of_mem_toDigits (by decide) (by decide) (written ▸ List.mem_cons_self)
        rw [(List.cons.inj same).1] at digit
        cases digit
      have value : numberValue false (Nat.toDigits 10 n) none none = some (.int n) :=
        numberValue_toDigits least greatest
      rw [Text.decimal, String.toList_ofList, numberToken]
      · simp only [Option.bind_eq_bind, wholePart_toDigits n delimited, Option.bind_some,
          fractionPart_delimited delimited, exponentPart_delimited delimited, value]
        rfl
      · exact noSign
  | negSucc n =>
      have value
          : numberValue true (Nat.toDigits 10 (n + 1)) none none = some (.int (.negSucc n)) :=
        numberValue_toDigits least greatest
      rw [Text.decimal, String.toList_ofList, List.cons_append]
      unfold numberToken
      simp only [Option.bind_eq_bind, wholePart_toDigits (n + 1) delimited, Option.bind_some,
        fractionPart_delimited delimited, exponentPart_delimited delimited, value]
      rfl

/-- An integer begins with a digit or a minus. -/
theorem head_decimal (n : Int)
    : ∃ c more, (Text.decimal n).toList = c :: more ∧ (c.isDigit = true ∨ c = '-') := by
  cases n with
  | ofNat n =>
      obtain ⟨c, more, written⟩ := List.exists_cons_of_ne_nil (Nat.toDigits_ne_nil (n := n))
      refine ⟨c, more, by rw [Text.decimal, String.toList_ofList, written], .inl ?_⟩
      exact Nat.isDigit_of_mem_toDigits (by decide) (by decide) (written ▸ List.mem_cons_self)
  | negSucc n => exact ⟨'-', _, by rw [Text.decimal, String.toList_ofList], .inr rfl⟩

/-- Nothing but a number begins with a digit or a minus. -/
theorem token?_of_number {c : Char} (begins : c.isDigit = true ∨ c = '-') (rest : List Char)
    : token? (c :: rest)
      = (numberToken (c :: rest)).map fun (value, left) => (.scalar value, left) := by
  have other : ∀ d, d.isDigit = false → d ≠ '-' → c ≠ d := by
    rintro d notDigit notMinus rfl
    rcases begins with digit | minus
    · rw [notDigit] at digit
      cases digit
    · exact notMinus minus
  unfold token?
  split
  case h_11 => rfl
  all_goals
    rename_i same
    exact absurd (List.cons.inj same).1 (other _ rfl (by decide))

/-- An integer that is written is in range. -/
theorem writeInt_eq_some {n : Int} {text : List Char} (written : writeInt n = some text)
    : leastInt ≤ n ∧ n ≤ greatestInt ∧ text = (Text.decimal n).toList := by
  unfold writeInt at written
  split at written
  case isFalse => cases written
  case isTrue range =>
    simp only [Bool.and_eq_true, decide_eq_true_eq] at range
    exact ⟨range.1, range.2, (Option.some.inj written).symm⟩

/-- An integer is read up to what follows a value. -/
theorem token?_writeInt {n : Int} {text : List Char} (written : writeInt n = some text)
    {rest : List Char} (delimited : Delimited rest)
    : token? (text ++ rest) = some (.scalar (.int n), rest) := by
  obtain ⟨least, greatest, rfl⟩ := writeInt_eq_some written
  obtain ⟨c, more, text, begins⟩ := head_decimal n
  have read := numberToken_decimal least greatest delimited
  rw [text, List.cons_append] at read ⊢
  rw [token?_of_number begins, read]
  rfl

/-- An integer does not begin with a space. -/
theorem exists_cons_of_writeInt {n : Int} {text : List Char} (written : writeInt n = some text)
    : ∃ c more, text = c :: more ∧ isSpace c = false := by
  obtain ⟨_, _, rfl⟩ := writeInt_eq_some written
  obtain ⟨c, more, same, digit | rfl⟩ := head_decimal n
  · refine ⟨c, more, same, ?_⟩
    simp [isSpace, Text.ne_of_isDigit digit ' ' rfl, Text.ne_of_isDigit digit '\t' rfl,
      Text.ne_of_isDigit digit '\n' rfl, Text.ne_of_isDigit digit '\r' rfl]
  · exact ⟨'-', more, same, by decide⟩

end DeltaFeed.Document
