import DeltaFeed.Proofs.Marker.IsoText
import DeltaFeed.Proofs.Outcome
import Mathlib.Data.Rat.Floor
import Mathlib.Tactic.FieldSimp
import Mathlib.Tactic.Linarith
import Mathlib.Tactic.Positivity
import Mathlib.Tactic.Ring

/-! What a written instant is read as. The text denotes a rational number of microseconds; it is
trimmed, a fraction before `Z` may be cut to milliseconds, and the rest is cut to microseconds. So
what is read is never later than what is denoted, and lies in the same millisecond.
-/

namespace DeltaFeed.Marker

open Time (Timestamp two clockText)

variable {text : IsoText}

-----------------------------------------------------------------------------------------
-- Fractions
-----------------------------------------------------------------------------------------

/-- (secondsOf digits) is the part of a second that the digits after a point denote. -/
def secondsOf (digits : List Char) : ℚ :=
  Nat.ofDigitChars 10 digits 0 / 10 ^ digits.length

/-- Later digits of a fraction count for less, by a tenth for each digit before them. -/
theorem secondsOf_append (front back : List Char)
    : secondsOf (front ++ back) = secondsOf front + secondsOf back / 10 ^ front.length := by
  rw [secondsOf, Nat.ofDigitChars_append, Nat.ofDigitChars_eq_ofDigitChars_zero,
    List.length_append, secondsOf, secondsOf]
  push_cast
  rw [pow_add]
  field_simp

/-- No fraction is negative. -/
theorem secondsOf_nonneg (digits : List Char)
    : 0 ≤ secondsOf digits := by
  unfold secondsOf
  positivity

/-- Digits denote less than a second. -/
theorem secondsOf_lt_one {digits : List Char} (isDigit : ∀ c ∈ digits, c.isDigit = true)
    : secondsOf digits < 1 := by
  induction digits with
  | nil => simp [secondsOf, Nat.ofDigitChars]
  | cons c rest ih =>
      have later := ih fun d member => isDigit d (List.mem_cons_of_mem _ member)
      have range : 48 ≤ c.toNat ∧ c.toNat ≤ 57 :=
        Char.isDigit_iff_toNat.mp (isDigit c List.mem_cons_self)
      have first : secondsOf [c] ≤ 9 / 10 := by
        have small : c.toNat - 48 ≤ 9 := by omega
        have small : ((c.toNat - 48 : Nat) : ℚ) ≤ 9 := by exact_mod_cast small
        have value : secondsOf [c] = ((c.toNat - 48 : Nat) : ℚ) / 10 := by
          simp [secondsOf, Nat.ofDigitChars]
        rw [value]
        linarith
      rw [← List.singleton_append, secondsOf_append]
      simp only [List.length_singleton, pow_one]
      linarith

/-- Zeros are no seconds. -/
theorem secondsOf_replicate_zero (n : Nat)
    : secondsOf (List.replicate n '0') = 0 := by
  simp [secondsOf, Nat.ofDigitChars_replicate_zero]

/-- The microseconds of a fraction are those of its first six digits. -/
theorem microsOf_eq (digits : List Char)
    : (microsOf digits : ℚ) = 1000000 * secondsOf (firstSix digits) := by
  by_cases none : digits = []
  · subst none
    simp [microsOf, firstSix, secondsOf, Nat.ofDigitChars]
  · rw [microsOf, secondsOf, length_firstSix none]
    ring

/-- A fraction is cut to whole microseconds. -/
theorem micros_le_secondsOf {digits : List Char} (isDigit : ∀ c ∈ digits, c.isDigit = true)
    : microsOf digits ≤ 1000000 * secondsOf digits
      ∧ 1000000 * secondsOf digits < microsOf digits + 1 := by
  by_cases none : digits = []
  · subst none
    simp [microsOf, firstSix, secondsOf, Nat.ofDigitChars]
  · have filled : secondsOf (digits ++ List.replicate 6 '0') = secondsOf digits := by
      rw [secondsOf_append, secondsOf_replicate_zero]
      simp
    have split := secondsOf_append (firstSix digits) ((digits ++ List.replicate 6 '0').drop 6)
    rw [length_firstSix none, firstSix, if_neg none, List.take_append_drop, filled] at split
    have rest : ∀ c ∈ (digits ++ List.replicate 6 '0').drop 6, c.isDigit = true := by
      intro c member
      rcases List.mem_append.mp (List.mem_of_mem_drop member) with digit | zero
      · exact isDigit c digit
      · rw [List.eq_of_mem_replicate zero]
        rfl
    have nonneg := secondsOf_nonneg ((digits ++ List.replicate 6 '0').drop 6)
    have small := secondsOf_lt_one rest
    rw [microsOf_eq, firstSix, if_neg none]
    constructor <;> linarith

/-- A fraction of three digits is a number of milliseconds. -/
theorem microsOf_three {digits : List Char} (three : digits.length = 3)
    : microsOf digits = 1000 * Nat.ofDigitChars 10 digits 0 := by
  have some : digits ≠ [] := by
    rintro rfl
    cases three
  have six : firstSix digits = digits ++ List.replicate 3 '0' := by
    rw [firstSix, if_neg some, List.take_append, three, List.take_of_length_le (by omega)]
    rfl
  rw [microsOf, six, Nat.ofDigitChars_append, Nat.ofDigitChars_replicate_zero]

/-- A fraction that is cut to three digits is cut to whole milliseconds. -/
theorem micros_take_le_secondsOf {digits : List Char} (long : 3 ≤ digits.length)
    (isDigit : ∀ c ∈ digits, c.isDigit = true)
    : microsOf (digits.take 3) ≤ 1000000 * secondsOf digits
      ∧ 1000000 * secondsOf digits < microsOf (digits.take 3) + 1000 := by
  have three : (digits.take 3).length = 3 := by simpa using long
  have split := secondsOf_append (digits.take 3) (digits.drop 3)
  rw [List.take_append_drop, three] at split
  have nonneg := secondsOf_nonneg (digits.drop 3)
  have small : secondsOf (digits.drop 3) < 1 :=
    secondsOf_lt_one fun c member => isDigit c (List.mem_of_mem_drop member)
  have millis : (microsOf (digits.take 3) : ℚ) = 1000000 * secondsOf (digits.take 3) := by
    rw [microsOf_three three, secondsOf, three]
    push_cast
    ring
  rw [millis, split]
  constructor <;> linarith

-----------------------------------------------------------------------------------------
-- Instants
-----------------------------------------------------------------------------------------

namespace IsoText

/-- (text.instant) is the instant that a text denotes, in microseconds since the beginning of 1970.
-/
def instant (text : IsoText) : ℚ :=
  text.clockMicros + 1000000 * secondsOf text.digits

/-- (text.micros) is the instant that a text denotes, cut to microseconds. -/
def micros (text : IsoText) : Int :=
  text.clockMicros + microsOf text.digits

/-- (text.normal) is the normal form of an instant: in UTC, a fraction of four to nine digits is cut
to three.
-/
def normal (text : IsoText) : IsoText :=
  if text.zone = .utc ∧ 4 ≤ text.digits.length ∧ text.digits.length ≤ 9 then
    { text with digits := text.digits.take 3 }
  else text

/-- The normal form of a valid text is valid. -/
theorem Valid.normal (valid : text.Valid)
    : text.normal.Valid := by
  unfold IsoText.normal
  split
  case isTrue =>
    exact { valid with
      isDigit := fun c member => valid.isDigit c (List.mem_of_mem_take member) }
  case isFalse => exact valid

/-- A time without a fraction is a whole number of milliseconds. -/
theorem thousand_dvd_clockMicros (text : IsoText)
    : 1000 ∣ text.clockMicros := by
  have zone : (1000 : Int) ∣ text.zone.micros := by
    rcases text.zone with _ | ⟨behind, hours, minutes⟩
    · exact Int.dvd_zero 1000
    · cases behind <;> simp only [Zone.micros, Text.applySign] <;> omega
  simp only [clockMicros, Timestamp.ofFields, Time.dayMicros]
  omega

/-- What lies between an instant and the end of its millisecond lies in that millisecond. -/
theorem floor_div_thousand {r width : Int} {x : ℚ} (lower : (r : ℚ) ≤ x)
    (upper : x < r + width) (fits : r + width ≤ (r / 1000 + 1) * 1000)
    : ⌊x / 1000⌋ = r / 1000 := by
  have begins : r / 1000 * 1000 ≤ r := Int.ediv_mul_le r (by decide)
  have begins : ((r / 1000 : Int) : ℚ) * 1000 ≤ r := by exact_mod_cast begins
  have fits : (r : ℚ) + width ≤ (((r / 1000 : Int) : ℚ) + 1) * 1000 := by exact_mod_cast fits
  rw [Int.floor_eq_iff]
  constructor
  · rw [le_div_iff₀ (by norm_num)]
    linarith
  · rw [div_lt_iff₀ (by norm_num)]
    linarith

/-- What is read of an instant lies in its millisecond, and is not later. -/
theorem Valid.micros_normal (valid : text.Valid)
    : text.normal.micros ≤ text.instant
      ∧ text.instant < text.normal.micros + 1000
      ∧ ⌊text.instant / 1000⌋ = text.normal.micros / 1000 := by
  have whole := text.thousand_dvd_clockMicros
  unfold IsoText.normal
  split
  case isTrue cut =>
    obtain ⟨_, long, _⟩ := cut
    obtain ⟨lower, upper⟩ := micros_take_le_secondsOf (by omega) valid.isDigit
    have three : (text.digits.take 3).length = 3 := by
      simp
      omega
    have millis := microsOf_three three
    have below : ((text.clockMicros + microsOf (text.digits.take 3) : Int) : ℚ) ≤ text.instant := by
      rw [instant]
      push_cast
      linarith
    have above : text.instant
        < ((text.clockMicros + microsOf (text.digits.take 3) : Int) : ℚ) + (1000 : Int) := by
      rw [instant]
      push_cast
      linarith
    have fits : text.clockMicros + microsOf (text.digits.take 3) + 1000
        ≤ ((text.clockMicros + microsOf (text.digits.take 3)) / 1000 + 1) * 1000 := by
      rw [millis]
      omega
    exact ⟨below, by exact_mod_cast above, floor_div_thousand below above fits⟩
  case isFalse =>
    obtain ⟨lower, upper⟩ := micros_le_secondsOf valid.isDigit
    have below : (text.micros : ℚ) ≤ text.instant := by
      rw [instant, micros]
      push_cast
      linarith
    have above : text.instant < text.micros + (1 : Int) := by
      rw [instant, micros]
      push_cast
      linarith
    refine ⟨below, ?_, floor_div_thousand below above (by omega)⟩
    push_cast at above
    linarith

-----------------------------------------------------------------------------------------
-- Reading
-----------------------------------------------------------------------------------------

/-- The fields of an instant make up the instant that is read. -/
theorem instant_ofFields (text : IsoText)
    : (Timestamp.ofFields text.date text.hour text.minute text.second (microsOf text.digits)
        (some text.zone.micros)).instant = text.micros := by
  simp only [Timestamp.instant, Timestamp.ofFields, micros, clockMicros, Option.getD_some]
  push_cast
  omega

end IsoText

/-- What is in p around a text that neither begins nor ends with it is dropped. -/
theorem trimBy_surrounded {p : Char → Bool} {left middle right : List Char} {first last : Char}
    (drops : ∀ c ∈ left ++ right, p c = true) (begins : p first = false) (ends : p last = false)
    : Text.trimBy p (left ++ first :: (middle ++ [last]) ++ right)
      = first :: (middle ++ [last]) := by
  have atEnd : ∀ c ∈ right.reverse, p c = true :=
    fun c member => drops c (List.mem_append_right _ (List.mem_reverse.mp member))
  have reversed : (first :: (middle ++ [last]) ++ right).reverse
      = right.reverse ++ last :: (first :: middle).reverse := by
    simp
  rw [Text.trimBy, List.append_assoc,
    List.dropWhile_append_of_pos fun c member => drops c (List.mem_append_left _ member),
    List.cons_append, List.dropWhile_cons_of_neg (by simp [begins]), ← List.cons_append, reversed,
    List.dropWhile_append_of_pos atEnd, List.dropWhile_cons_of_neg (by simp [ends])]
  simp

/-- Only a fraction of four to nine digits before `Z` is cut. -/
theorem normalizeText_eq {marker body digits : List Char} {mark : Char}
    (trimmed : Text.trim marker = body ++ mark :: digits ++ ['Z'])
    (isDigit : ∀ c ∈ digits, c.isDigit = true) (noDigit : Text.isDecimal mark = false)
    : normalizeText marker
      = if mark = '.' ∧ 4 ≤ digits.length ∧ digits.length ≤ 9 then
          body ++ '.' :: digits.take 3 ++ ['Z']
        else body ++ mark :: digits ++ ['Z'] := by
  have decimal : ∀ c ∈ digits.reverse, Text.isDecimal c = true := by
    intro c member
    exact Text.isDecimal_of_isDigit (isDigit c (List.mem_reverse.mp member))
  have reversed : (body ++ mark :: digits ++ ['Z']).reverse
      = 'Z' :: (digits.reverse ++ mark :: body.reverse) := by simp
  rw [normalizeText, trimmed, reversed]
  split
  case h_2 _ other => exact absurd rfl (other _)
  case h_1 before same =>
    obtain rfl := (List.cons.inj same).2
    rw [List.takeWhile_append_of_pos decimal, List.takeWhile_cons_of_neg (by simp [noDigit]),
      List.dropWhile_append_of_pos decimal, List.dropWhile_cons_of_neg (by simp [noDigit])]
    split
    case h_1 rest same =>
      obtain ⟨rfl, rfl⟩ := List.cons.inj same
      simp
    case h_2 other =>
      have noPoint : mark ≠ '.' := fun same => other _ (by rw [same])
      rw [if_neg fun both => noPoint both.1]

/-- A text without a final `Z` is only trimmed. -/
theorem normalizeText_eq_trim {marker before : List Char} {last : Char}
    (trimmed : Text.trim marker = before ++ [last]) (other : last ≠ 'Z')
    : normalizeText marker = before ++ [last] := by
  rw [normalizeText, trimmed, List.reverse_append]
  split
  case h_1 rest same => exact absurd (List.cons.inj same).1 other
  case h_2 => rfl

namespace IsoText

/-- An instant begins with a digit, and ends with one or with `Z`. -/
theorem chars_ends (text : IsoText)
    : ∃ first middle last, text.chars = first :: (middle ++ [last])
        ∧ first.isDigit = true
        ∧ (last.isDigit = true ∨ last = 'Z') := by
  obtain ⟨first, more, year⟩ := List.exists_cons_of_ne_nil
    (Text.padded_ne_nil 4 text.date.year)
  have digit : first.isDigit = true :=
    Text.isDigit_of_mem_padded (year ▸ List.mem_cons_self)
  obtain ⟨before, last, zone, isLast⟩ : ∃ before last, text.zone.chars = before ++ [last]
      ∧ (last.isDigit = true ∨ last = 'Z') := by
    cases text.zone with
    | utc => exact ⟨[], 'Z', rfl, .inr rfl⟩
    | offset behind hours minutes =>
        obtain ⟨before, last, same, isDigit⟩ := Zone.chars_offset behind hours minutes
        exact ⟨before, last, same, .inl isDigit⟩
  refine ⟨first, more ++ '-' :: two text.date.month ++ '-' :: two text.date.day
    ++ 'T' :: clockText text.hour text.minute text.second ++ text.fraction ++ before, last, ?_,
    digit, isLast⟩
  simp [chars, upToSeconds, zone, year]

/-- The blanks around an instant are trimmed. -/
theorem trim_surrounded (text : IsoText) {left right : List Char}
    (blank : ∀ c ∈ left ++ right, Text.isBlank c = true)
    : Text.trim (left ++ text.chars ++ right) = text.chars := by
  obtain ⟨first, middle, last, split, digit, isLast⟩ := text.chars_ends
  have notBlank : Text.isBlank last = false := by
    rcases isLast with digit | rfl
    · exact Text.isBlank_of_isDigit digit
    · decide
  rw [split]
  exact trimBy_surrounded blank (Text.isBlank_of_isDigit digit) notBlank

/-- An instant with blanks around it is brought to its normal form. -/
theorem Valid.normalizeText_surrounded (valid : text.Valid) {left right : List Char}
    (blank : ∀ c ∈ left ++ right, Text.isBlank c = true)
    : normalizeText (left ++ text.chars ++ right) = text.normal.chars := by
  have trimmed := text.trim_surrounded blank
  rw [IsoText.normal]
  cases zone : text.zone with
  | utc =>
      by_cases none : text.digits = []
      · have split : text.chars = Text.padded 4 text.date.year ++ '-' :: two text.date.month
            ++ '-' :: two text.date.day ++ 'T' :: two text.hour ++ ':' :: two text.minute
            ++ ':' :: two text.second ++ ['Z'] := by
          simp [chars, upToSeconds, fraction, none, zone, Zone.chars, clockText]
        rw [normalizeText_eq (trimmed.trans split) (fun _ => isDigit_of_mem_two) (by decide),
          if_neg (by simp), if_neg (by simp [none]), split]
      · have split : text.chars = text.upToSeconds ++ '.' :: text.digits ++ ['Z'] := by
          rw [chars, fraction, if_neg none, zone, Zone.chars]
        rw [normalizeText_eq (trimmed.trans split) valid.isDigit (by decide)]
        by_cases long : 4 ≤ text.digits.length ∧ text.digits.length ≤ 9
        · have some : text.digits.take 3 ≠ [] := by
            apply List.ne_nil_of_length_pos
            rw [List.length_take]
            omega
          rw [if_pos ⟨rfl, long⟩, if_pos ⟨rfl, long⟩, chars, fraction]
          dsimp only
          rw [if_neg some]
          rfl
        · rw [if_neg (by simpa using long), if_neg (by simpa using long), split]
  | offset behind hours minutes =>
      obtain ⟨before, last, ends, digit⟩ := Zone.chars_offset behind hours minutes
      have split : text.chars = text.upToSeconds ++ text.fraction ++ before ++ [last] := by
        rw [chars, zone, ends, List.append_assoc _ before]
      rw [normalizeText_eq_trim (trimmed.trans split) (Text.ne_of_isDigit digit 'Z' rfl),
        if_neg (by simp), split]

/-- An instant is read to the microsecond. -/
theorem Valid.readText_chars (valid : text.Valid) (inYears : Time.Representable text.micros)
    : readText (String.ofList text.chars) = .ok (.utc text.micros) := by
  have noBlanks : ∀ c ∈ ([] ++ [] : List Char), Text.isBlank c = true := nofun
  have trimmed := text.trim_surrounded noBlanks
  rw [List.nil_append, List.append_nil] at trimmed
  have notCount : text.chars.all Text.isDigit = false := by
    have hyphen : Text.isDigit '-' = false := by decide
    simp [chars, upToSeconds, hyphen]
  rw [readText, String.toList_ofList, trimmed, notCount, Bool.and_false,
    if_neg Bool.false_ne_true]
  by_cases plain : text.digits = [] ∧ text.zone = .utc
  · rw [valid.readPlain_chars plain.1 plain.2, ← text.instant_ofFields, plain.1, plain.2]
    exact congrArg Except.ok (Timestamp.utc_instant rfl).symm
  · rw [valid.readPlain_eq_none (not_and_or.mp plain), offsetForm_sixDigits valid.isDigit,
      valid.readIso_extended]
    dsimp only
    rw [Timestamp.toUtc, text.instant_ofFields, Timestamp.ofInstant, if_pos inYears]

/-- An instant with blanks around it is parsed as its normal form is read. -/
theorem Valid.parse_yields {σ : Type} {s : σ} {Q : σ → Prop} (valid : text.Valid)
    (inYears : Time.Representable text.normal.micros) {left right : List Char}
    (blank : ∀ c ∈ left ++ right, Text.isBlank c = true) (start : Q s)
    : (parse (.text (String.ofList (left ++ text.chars ++ right))) : Op σ Timestamp).Yields s
        (.ok (.utc text.normal.micros)) Q := by
  have normal
      : (normalize (String.ofList (left ++ text.chars ++ right)) : Op σ String).Yields s
          (.ok (String.ofList text.normal.chars)) Q := by
    unfold normalize
    rw [String.toList_ofList, valid.normalizeText_surrounded blank]
    dsimp only
    split
    case isTrue => exact .bind_tell (.pure _ start)
    case isFalse => exact .pure _ start
  apply Op.Yields.bind normal
  intro s start
  exact valid.normal.readText_chars inYears ▸ .ofResult _ start

end IsoText

end DeltaFeed.Marker
