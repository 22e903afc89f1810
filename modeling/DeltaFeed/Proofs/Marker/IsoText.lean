import DeltaFeed.Marker
import DeltaFeed.Proofs.Text.Digits
import DeltaFeed.Proofs.Time.Calendar
import Mathlib.Data.List.Basic
import Mathlib.Data.List.TakeWhile

/-! Instants as ISO 8601 writes them: a date, a time of day, a fraction of any length or none, and
`Z` or an offset. Each such text is read as the instant that it denotes, with a fraction that is
cut to microseconds, whichever of the two readers takes it.
-/

namespace DeltaFeed.Marker

open Time (Timestamp two clockText)

-----------------------------------------------------------------------------------------
-- Written instants
-----------------------------------------------------------------------------------------

/-- How a written instant tells its offset from UTC. -/
inductive Zone where
  | utc
  | offset (behind : Bool) (hours minutes : Nat)
deriving DecidableEq, Repr

namespace Zone

def chars : Zone → List Char
  | utc => ['Z']
  | offset behind hours minutes =>
    (if behind then '-' else '+') :: two hours ++ ':' :: two minutes

/-- (zone.micros) are the microseconds by which a zone is ahead of UTC. -/
def micros : Zone → Int
  | utc => 0
  | offset behind hours minutes => Text.applySign behind ((hours * 3600 + minutes * 60) * 1000000)

/-- (zone.Valid) says that an offset is less than a day, in hours and minutes. -/
def Valid : Zone → Prop
  | utc => True
  | offset _ hours minutes => hours < 24 ∧ minutes < 60

def asOffset : Zone → Zone
  | utc => offset false 0 0
  | zone => zone

end Zone

/-- An instant as ISO 8601 writes it. -/
structure IsoText where
  date : Time.Date
  hour : Nat
  minute : Nat
  second : Nat
  /-- The digits of the fraction; there is no point without digits. -/
  digits : List Char
  zone : Zone
deriving DecidableEq, Repr

namespace IsoText

/-- (text.upToSeconds) writes an instant without its fraction and its zone. -/
def upToSeconds (text : IsoText) : List Char :=
  Text.padded 4 text.date.year ++ '-' :: two text.date.month ++ '-' :: two text.date.day
    ++ 'T' :: clockText text.hour text.minute text.second

def fraction (text : IsoText) : List Char :=
  if text.digits = [] then [] else '.' :: text.digits

def chars (text : IsoText) : List Char :=
  text.upToSeconds ++ text.fraction ++ text.zone.chars

/-- The fields of a written instant are in range. -/
structure Valid (text : IsoText) : Prop where
  date : text.date.Valid
  hour_lt : text.hour < 24
  minute_lt : text.minute < 60
  second_lt : text.second < 60
  isDigit : ∀ c ∈ text.digits, c.isDigit = true
  zone : text.zone.Valid

/-- (text.clockMicros) is the instant without its fraction, in microseconds since the beginning of
1970.
-/
def clockMicros (text : IsoText) : Int :=
  (Timestamp.ofFields text.date text.hour text.minute text.second 0 none).wall - text.zone.micros

end IsoText

/-- (firstSix digits) are the digits of a fraction that count, filled up with zeros. -/
def firstSix (digits : List Char) : List Char :=
  if digits = [] then [] else (digits ++ List.replicate 6 '0').take 6

/-- (microsOf digits) are the whole microseconds of a fraction. -/
def microsOf (digits : List Char) : Nat :=
  Nat.ofDigitChars 10 (firstSix digits) 0

variable {text : IsoText} {n : Nat}

-----------------------------------------------------------------------------------------
-- Fields
-----------------------------------------------------------------------------------------

/-- A field ends before its stop. -/
theorem field_append {stop : Char} {read : List Char → Option Nat} {text rest : List Char}
    (before : ∀ c ∈ text, c ≠ stop ∧ c ≠ stop.toLower)
    : field stop read (text ++ stop :: rest) = (read text).map (·, rest) := by
  have goesOn : ∀ c ∈ text, (!(c == stop || c == stop.toLower)) = true := by
    intro c member
    simp [before c member]
  unfold field
  dsimp only
  rw [List.dropWhile_append_of_pos goesOn, List.dropWhile_cons_of_neg (by simp),
    List.takeWhile_append_of_pos goesOn, List.takeWhile_cons_of_neg (by simp), List.append_nil]
  cases read text <;> rfl

/-- A field of digits is read up to the character that stops it. -/
theorem field_append_digits {stop : Char} {read : List Char → Option Nat} {text rest : List Char}
    {value : Nat} (isDigit : ∀ c ∈ text, c.isDigit = true)
    (isStop : stop.isDigit = false ∧ stop.toLower.isDigit = false) (h : read text = some value)
    : field stop read (text ++ stop :: rest) = some (value, rest) := by
  rw [field_append, h]
  · rfl
  · intro c member
    exact ⟨Text.ne_of_isDigit (isDigit c member) stop isStop.1,
      Text.ne_of_isDigit (isDigit c member) stop.toLower isStop.2⟩

/-- A field is missing from a text without its stop. -/
theorem field_eq_none {stop : Char} {read : List Char → Option Nat} {text : List Char}
    (absent : ∀ c ∈ text, c ≠ stop ∧ c ≠ stop.toLower)
    : field stop read text = none := by
  have goesOn : text.dropWhile (fun c => !(c == stop || c == stop.toLower)) = [] := by
    apply List.dropWhile_eq_nil_iff.mpr
    intro c member
    simp [absent c member]
  unfold field
  dsimp only
  rw [goesOn]

/-- Digits are read one after the other as the number that they write. -/
theorem foldlM_digits {text : List Char} (isDigit : ∀ c ∈ text, c.isDigit = true) (value : Nat)
    : text.foldlM (fun n c => (Text.decimalValue? c).map (10 * n + ·)) value
      = some (Nat.ofDigitChars 10 text value) := by
  induction text generalizing value with
  | nil => rfl
  | cons c rest ih =>
      have later := ih fun c member => isDigit c (List.mem_cons_of_mem _ member)
      rw [List.foldlM_cons, Text.decimalValue?_of_isDigit (isDigit c List.mem_cons_self),
        Nat.ofDigitChars_cons]
      exact later _

theorem yearField_padded (small : n ≤ 9999)
    : yearField (Text.padded 4 n) = some n := by
  rw [yearField, if_pos (Text.length_padded 4 n (by decide) (by omega)),
    foldlM_digits fun _ => Text.isDigit_of_mem_padded, Text.ofDigitChars_padded]

theorem monthField_two (positive : 1 ≤ n) (small : n ≤ 12)
    : monthField (two n) = some n := by
  have all : ∀ m < 13, 1 ≤ m → monthField (two m) = some m := by decide
  exact all n (by omega) positive

theorem dayField_two (positive : 1 ≤ n) (small : n ≤ 31)
    : dayField (two n) = some n := by
  have all : ∀ d < 32, 1 ≤ d → dayField (two d) = some d := by decide
  exact all n (by omega) positive

theorem hourField_two (small : n < 24)
    : hourField (two n) = some n := by
  have all : ∀ h < 24, hourField (two h) = some h := by decide
  exact all n small

theorem minuteField_two (small : n < 60)
    : minuteField (two n) = some n := by
  have all : ∀ m < 60, minuteField (two m) = some m := by decide
  exact all n small

/-- No month has more than 31 days. -/
theorem daysInMonth_le (year month : Nat)
    : Time.daysInMonth year month ≤ 31 := by
  unfold Time.daysInMonth
  split <;> first | decide | (split <;> decide)

theorem isDigit_of_mem_two {c : Char} (member : c ∈ two n)
    : c.isDigit = true :=
  Text.isDigit_of_mem_padded member

theorem length_two (small : n < 100)
    : (two n).length = 2 :=
  Text.length_padded 2 n (by decide) (by omega)

/-- A time of day has digits and colons. -/
theorem isDigit_of_mem_clockText {hour minute second : Nat} {c : Char}
    (member : c ∈ clockText hour minute second)
    : c.isDigit = true ∨ c = ':' := by
  simp only [clockText, List.mem_append, List.mem_cons] at member
  rcases member with (digit | colon | digit) | colon | digit
  · exact .inl (isDigit_of_mem_two digit)
  · exact .inr colon
  · exact .inl (isDigit_of_mem_two digit)
  · exact .inr colon
  · exact .inl (isDigit_of_mem_two digit)

namespace IsoText

theorem Valid.day_lt (valid : text.Valid)
    : text.date.day < 32 :=
  Nat.lt_succ_of_le (Nat.le_trans valid.date.day_le (daysInMonth_le _ _))

/-- The fraction of an instant has digits and a point. -/
theorem Valid.isDigit_of_mem_fraction (valid : text.Valid) {c : Char}
    (member : c ∈ text.fraction)
    : c.isDigit = true ∨ c = '.' := by
  rw [fraction] at member
  split at member
  case isTrue => cases member
  case isFalse =>
    rcases List.mem_cons.mp member with point | digit
    · exact .inr point
    · exact .inl (valid.isDigit c digit)

/-- The fields before the seconds are read one after the other. -/
theorem Valid.readPlain_eq (valid : text.Valid) (rest : List Char)
    : readPlain (text.upToSeconds ++ rest)
      = (field 'Z' minuteField (two text.second ++ rest)).bind fun found =>
        if !found.2.isEmpty then none
        else some (.ofFields text.date text.hour text.minute found.1 0 (some 0)) := by
  have exists' : ¬(text.date.year < 1
      ∨ Time.daysInMonth text.date.year text.date.month < text.date.day) := by
    have := valid.date.year_pos
    have := valid.date.day_le
    omega
  have split : text.upToSeconds ++ rest
      = Text.padded 4 text.date.year ++ '-' :: (two text.date.month ++ '-' :: (two text.date.day
        ++ 'T' :: (two text.hour ++ ':' :: (two text.minute ++ ':' :: (two text.second
        ++ rest))))) := by
    simp [upToSeconds, clockText]
  rw [split, readPlain,
    field_append_digits (fun _ => Text.isDigit_of_mem_padded) (by decide)
      (yearField_padded valid.date.year_le)]
  simp only [Option.bind_eq_bind, Option.bind_some]
  rw [field_append_digits (fun _ => isDigit_of_mem_two) (by decide)
    (monthField_two valid.date.month_pos valid.date.month_le), Option.bind_some]
  dsimp only
  rw [field_append_digits (fun _ => isDigit_of_mem_two) (by decide)
    (dayField_two valid.date.day_pos (Nat.le_of_lt_succ valid.day_lt)), Option.bind_some]
  dsimp only
  rw [field_append_digits (fun _ => isDigit_of_mem_two) (by decide)
    (hourField_two valid.hour_lt), Option.bind_some]
  dsimp only
  rw [field_append_digits (fun _ => isDigit_of_mem_two) (by decide)
    (minuteField_two valid.minute_lt), Option.bind_some]
  simp only [Bool.or_eq_true, decide_eq_true_eq, or_assoc, exists', or_false]
  rfl

/-- An instant in UTC without a fraction is read field by field. -/
theorem Valid.readPlain_chars (valid : text.Valid) (whole : text.digits = [])
    (inUtc : text.zone = .utc)
    : readPlain text.chars
      = some (.ofFields text.date text.hour text.minute text.second 0 (some 0)) := by
  rw [chars, fraction, if_pos whole, inUtc, List.append_nil, Zone.chars, valid.readPlain_eq,
    field_append_digits (fun _ => isDigit_of_mem_two) (by decide)
      (minuteField_two valid.second_lt)]
  rfl

/-- Seconds are no more than two digits. -/
theorem minuteField_eq_none {text : List Char} (long : 2 < text.length)
    : minuteField text = none := by
  unfold minuteField
  split
  · simp at long
  · simp at long
  · rfl

/-- A fraction is no part of the seconds, and an offset is no `Z`. -/
theorem Valid.readPlain_eq_none (valid : text.Valid)
    (other : text.digits ≠ [] ∨ text.zone ≠ .utc)
    : readPlain text.chars = none := by
  have isSecond : ∀ c ∈ two text.second ++ text.fraction, c ≠ 'Z' ∧ c ≠ 'Z'.toLower := by
    intro c member
    rcases List.mem_append.mp member with digit | member
    · exact ⟨Text.ne_of_isDigit (isDigit_of_mem_two digit) _ rfl,
        Text.ne_of_isDigit (isDigit_of_mem_two digit) _ rfl⟩
    · rcases valid.isDigit_of_mem_fraction member with digit | rfl
      · exact ⟨Text.ne_of_isDigit digit _ rfl, Text.ne_of_isDigit digit _ rfl⟩
      · decide
  rw [chars, List.append_assoc, valid.readPlain_eq, ← List.append_assoc]
  cases zone : text.zone with
  | utc =>
      have digits : text.digits ≠ [] := other.resolve_right (not_not_intro zone)
      have long : 2 < (two text.second ++ text.fraction).length := by
        have := valid.second_lt
        rw [fraction, if_neg digits, List.length_append, length_two (by omega)]
        simp
      rw [Zone.chars, field_append isSecond, minuteField_eq_none long]
      rfl
  | offset behind hours minutes =>
      have isZone : ∀ c ∈ (Zone.offset behind hours minutes).chars, c ≠ 'Z' ∧ c ≠ 'Z'.toLower := by
        intro c member
        simp only [Zone.chars, List.mem_append, List.mem_cons] at member
        rcases member with (rfl | digit) | rfl | digit
        · cases behind <;> decide
        · exact ⟨Text.ne_of_isDigit (isDigit_of_mem_two digit) _ rfl,
            Text.ne_of_isDigit (isDigit_of_mem_two digit) _ rfl⟩
        · decide
        · exact ⟨Text.ne_of_isDigit (isDigit_of_mem_two digit) _ rfl,
            Text.ne_of_isDigit (isDigit_of_mem_two digit) _ rfl⟩
      rw [field_eq_none]
      · rfl
      · intro c member
        rcases List.mem_append.mp member with isBefore | inZone
        · exact isSecond c isBefore
        · exact isZone c inZone

end IsoText

-----------------------------------------------------------------------------------------
-- The extended form
-----------------------------------------------------------------------------------------

/-- A run of digits is read as the number that it writes. -/
theorem digits_append {text : List Char} (isDigit : ∀ c ∈ text, c.isDigit = true)
    (rest : List Char)
    : Time.digits text.length (text ++ rest) = some (Nat.ofDigitChars 10 text 0, rest) := by
  have go (value : Nat)
      : Time.digits.go text.length value (text ++ rest)
        = some (Nat.ofDigitChars 10 text value, rest) := by
    induction text generalizing value with
    | nil => rfl
    | cons c more ih =>
        have later := ih fun c member => isDigit c (List.mem_cons_of_mem _ member)
        rw [List.length_cons, List.cons_append, Time.digits.go,
          Text.asciiValue?_of_isDigit (isDigit c List.mem_cons_self), Nat.ofDigitChars_cons]
        exact later _
  exact go 0

/-- A padded number is read back from the digits that are due. -/
theorem digits_padded {width : Nat} (positive : 0 < width) (small : n < 10 ^ width)
    (rest : List Char)
    : Time.digits width (Text.padded width n ++ rest) = some (n, rest) := by
  have isDigit : ∀ c ∈ Text.padded width n, c.isDigit = true :=
    fun _ => Text.isDigit_of_mem_padded
  have read := digits_append isDigit rest
  rwa [Text.length_padded width n positive small, Text.ofDigitChars_padded] at read

/-- Two digits are read back as their number. -/
theorem digits_two (small : n < 100) (rest : List Char)
    : Time.digits 2 (two n ++ rest) = some (n, rest) :=
  digits_padded (by decide) (by omega) rest

theorem digits_two_end (small : n < 100)
    : Time.digits 2 (two n) = some (n, []) := by
  simpa using digits_two small []

/-- What comes before the point of a fraction stays as it is. -/
theorem sixDigits_append {text : List Char} (noPoint : '.' ∉ text) (rest : List Char)
    : sixDigits (text ++ rest) = text ++ sixDigits rest := by
  induction text with
  | nil => rfl
  | cons c more ih =>
      obtain ⟨first, others⟩ := not_or.mp (mt List.mem_cons.mpr noPoint)
      rw [List.cons_append, sixDigits, if_neg (by simp [Ne.symm first]), ih others]
      rfl

/-- A fraction is brought to six digits, up to the character after it. -/
theorem sixDigits_point {digits : List Char} {mark : Char} (rest : List Char)
    (some : digits ≠ []) (isDigit : ∀ c ∈ digits, c.isDigit = true)
    (stop : Text.isDecimal mark = false)
    : sixDigits ('.' :: digits ++ mark :: rest)
      = '.' :: firstSix digits ++ sixDigits (mark :: rest) := by
  have decimal : ∀ c ∈ digits, Text.isDecimal c = true :=
    fun c member => Text.isDecimal_of_isDigit (isDigit c member)
  have begins : ((digits ++ mark :: rest).head?.map Text.isDecimal).getD false = true := by
    cases digits with
    | nil => exact absurd rfl some
    | cons c more => simp [decimal c List.mem_cons_self]
  rw [List.cons_append, sixDigits, begins, if_pos (by simp),
    List.takeWhile_append_of_pos decimal, List.takeWhile_cons_of_neg (by simp [stop]),
    List.dropWhile_append_of_pos decimal, List.dropWhile_cons_of_neg (by simp [stop]),
    List.append_nil, firstSix, if_neg some]

/-- A text that ends with Z is given the offset of UTC. -/
theorem offsetForm_append (text : List Char)
    : offsetForm (text ++ ['Z']) = text ++ ['+', '0', '0', ':', '0', '0'] := by
  simp [offsetForm]

/-- Only a final `Z` is written as an offset. -/
theorem offsetForm_eq_self {text : List Char} {last : Char} (other : last ≠ 'Z')
    : offsetForm (text ++ [last]) = text ++ [last] := by
  unfold offsetForm
  split
  case h_1 before same =>
    rw [List.reverse_append] at same
    exact absurd (List.cons.inj same).1 other
  case h_2 => rfl

/-- A fraction is cut or filled up to six digits. -/
theorem length_firstSix {digits : List Char} (some : digits ≠ [])
    : (firstSix digits).length = 6 := by
  rw [firstSix, if_neg some]
  simp

/-- The six digits of a fraction are its own, or zeros. -/
theorem isDigit_of_mem_firstSix {digits : List Char} (isDigit : ∀ c ∈ digits, c.isDigit = true)
    {c : Char} (member : c ∈ firstSix digits)
    : c.isDigit = true := by
  rw [firstSix] at member
  split at member
  case isTrue => cases member
  case isFalse =>
    rcases List.mem_append.mp (List.mem_of_mem_take member) with digit | zero
    · exact isDigit c digit
    · rw [List.eq_of_mem_replicate zero]
      rfl

theorem lastByte_cons_append (c : Char) {text : List Char} (more : text ≠ []) (rest : List Char)
    : Time.lastByte (c :: (text ++ rest)) = false := by
  cases text with
  | nil => exact absurd rfl more
  | cons d text => rfl

theorem lastByte_cons_two (c : Char) (n : Nat)
    : Time.lastByte (c :: two n) = false := by
  have := lastByte_cons_append c (Text.padded_ne_nil 2 n) []
  rwa [List.append_nil] at this

/-- A fraction of six digits is a number of microseconds. -/
theorem fraction_firstSix {digits : List Char} (some : digits ≠ [])
    (isDigit : ∀ c ∈ digits, c.isDigit = true)
    : Time.fraction (firstSix digits) = .some (microsOf digits, []) := by
  have read := digits_append (fun _ => isDigit_of_mem_firstSix isDigit) []
  rw [length_firstSix some, List.append_nil] at read
  rw [Time.fraction, length_firstSix some]
  simp [read, microsOf]

theorem microsOf_nil
    : microsOf [] = 0 := rfl

namespace Zone

/-- An offset ends with a digit. -/
theorem chars_offset (behind : Bool) (hours minutes : Nat)
    : ∃ before last, (offset behind hours minutes).chars = before ++ [last]
        ∧ last.isDigit = true := by
  obtain ⟨front, last, same⟩ := (List.eq_nil_or_concat' (two minutes)).resolve_left
    (Text.padded_ne_nil 2 minutes)
  refine ⟨(if behind then '-' else '+') :: two hours ++ ':' :: front, last, ?_, ?_⟩
  · rw [chars, same]
    simp
  · exact isDigit_of_mem_two (same ▸ List.mem_append_right _ List.mem_cons_self)

def mark : Zone → Char
  | utc => 'Z'
  | offset behind _ _ => if behind then '-' else '+'

def rest : Zone → List Char
  | utc => []
  | offset _ hours minutes => two hours ++ ':' :: two minutes

/-- The text of a zone begins with its mark. -/
theorem chars_eq (zone : Zone)
    : zone.chars = zone.mark :: zone.rest := by
  cases zone <;> rfl

theorem isDecimal_mark (zone : Zone)
    : Text.isDecimal zone.mark = false := by
  rcases zone with _ | ⟨behind, hours, minutes⟩
  · decide
  · cases behind with
    | false => exact (by decide : Text.isDecimal '+' = false)
    | true => exact (by decide : Text.isDecimal '-' = false)

/-- A zone that is valid is so as an offset. -/
theorem Valid.asOffset {zone : Zone} (valid : zone.Valid)
    : zone.asOffset.Valid := by
  cases zone with
  | utc => exact ⟨by decide, by decide⟩
  | offset => exact valid

/-- A zone and its offset are the same time from UTC. -/
theorem micros_asOffset (zone : Zone)
    : zone.asOffset.micros = zone.micros := by
  cases zone <;> rfl

/-- No zone has a point, so that the fraction is found before it. -/
theorem point_not_mem_chars (zone : Zone)
    : '.' ∉ zone.chars := by
  rcases zone with _ | ⟨behind, hours, minutes⟩
  · decide
  · intro member
    simp only [chars, List.mem_append, List.mem_cons] at member
    rcases member with (sign | digit) | colon | digit
    · revert sign
      cases behind <;> decide
    · cases isDigit_of_mem_two digit
    · exact absurd colon (by decide)
    · cases isDigit_of_mem_two digit

end Zone

namespace IsoText

/-- The point of a fraction is the first one in an instant. -/
theorem point_not_mem_upToSeconds (text : IsoText)
    : '.' ∉ text.upToSeconds := by
  have noDigit {c : Char} (digit : c.isDigit = true) : '.' ≠ c :=
    (Text.ne_of_isDigit digit '.' rfl).symm
  intro member
  simp only [upToSeconds, List.mem_append, List.mem_cons] at member
  rcases member with ((digit | mark | digit) | mark | digit) | mark | clock
  · exact noDigit (Text.isDigit_of_mem_padded digit) rfl
  · exact absurd mark (by decide)
  · exact noDigit (isDigit_of_mem_two digit) rfl
  · exact absurd mark (by decide)
  · exact noDigit (isDigit_of_mem_two digit) rfl
  · exact absurd mark (by decide)
  · rcases isDigit_of_mem_clockText clock with digit | colon
    · exact noDigit digit rfl
    · exact absurd colon (by decide)

/-- (text.extended) is an instant in the form that is left to the second reader: with a fraction of
six digits or none, and with an offset.
-/
def extended (text : IsoText) : IsoText :=
  { text with digits := firstSix text.digits, zone := text.zone.asOffset }

/-- A text is extended to the form that is read, with six digits and an offset. -/
theorem offsetForm_sixDigits (isDigit : ∀ c ∈ text.digits, c.isDigit = true)
    : offsetForm (sixDigits text.chars) = text.extended.chars := by
  have zoned : sixDigits text.zone.chars = text.zone.chars := by
    have := sixDigits_append text.zone.point_not_mem_chars []
    simpa [sixDigits] using this
  have six : sixDigits text.chars
      = text.upToSeconds ++ text.extended.fraction ++ text.zone.chars := by
    rw [chars, List.append_assoc, sixDigits_append text.point_not_mem_upToSeconds,
      List.append_assoc]
    congr 1
    by_cases none : text.digits = []
    · simp [fraction, extended, none, firstSix, zoned]
    · have filled : firstSix text.digits ≠ [] := by
        intro empty
        have := length_firstSix none
        rw [empty] at this
        cases this
      rw [fraction, if_neg none, fraction, extended, if_neg filled, Zone.chars_eq,
        sixDigits_point _ none isDigit text.zone.isDecimal_mark, ← Zone.chars_eq, zoned]
  rw [six, chars, extended]
  cases text.zone with
  | utc => exact offsetForm_append _
  | offset behind hours minutes =>
      obtain ⟨before, last, same, digit⟩ := Zone.chars_offset behind hours minutes
      simp only [Zone.asOffset, same, ← List.append_assoc]
      exact offsetForm_eq_self (Text.ne_of_isDigit digit 'Z' rfl)

/-- Extending a text keeps it valid. -/
theorem Valid.extended (valid : text.Valid)
    : text.extended.Valid :=
  { valid with
    isDigit := fun _ => isDigit_of_mem_firstSix valid.isDigit
    zone := valid.zone.asOffset }

/-- The point of the extended form stands before six digits. -/
theorem extended_fraction (text : IsoText)
    : text.extended.fraction
      = if text.digits = [] then [] else '.' :: firstSix text.digits := by
  by_cases none : text.digits = []
  · simp [fraction, extended, none, firstSix]
  · have filled : firstSix text.digits ≠ [] := by
      intro empty
      have := length_firstSix none
      rw [empty] at this
      cases this
    rw [fraction, extended, if_neg filled, if_neg none]

/-- (text.time) is the time of day of an instant, to the microsecond. -/
def time (text : IsoText) : Time.WrittenTime :=
  { hour := text.hour
    minute := text.minute
    second := text.second
    micro := microsOf text.digits }

/-- A time of day is read up to the sign of its offset. -/
theorem Valid.readTime_clockText (valid : text.Valid) {sign : Char}
    (isSign : sign = '+' ∨ sign = '-')
    : Time.readTime (clockText text.hour text.minute text.second ++ text.extended.fraction) sign
      = some (text.time, false) := by
  have colon (rest : List Char) : Time.nextChar (':' :: rest) sign = ':' := rfl
  have notDone : Time.nextChar [] sign ≠ Time.endOfText := by
    rcases isSign with rfl | rfl <;> decide
  have notEmpty (n : Nat) : two n ≠ [] := Text.padded_ne_nil 2 n
  have h1 := valid.hour_lt
  have h2 := valid.minute_lt
  have h3 := valid.second_lt
  have split : clockText text.hour text.minute text.second ++ text.extended.fraction
      = two text.hour ++ ':' :: (two text.minute ++ ':' :: (two text.second
        ++ text.extended.fraction)) := by
    simp [clockText]
  rw [split, extended_fraction, Time.readTime, time]
  by_cases none : text.digits = []
  · have last : Time.lastByte [] = true := rfl
    simp [none, microsOf_nil, digits_two (n := text.hour) (by omega),
      digits_two (n := text.minute) (by omega), digits_two_end (n := text.second) (by omega),
      colon, notDone, lastByte_cons_append _ (notEmpty _), lastByte_cons_two, last]
  · obtain ⟨first, more, six⟩ := List.exists_cons_of_length_eq_add_one (length_firstSix none)
    have last : Time.lastByte ('.' :: firstSix text.digits) = false := by rw [six]; rfl
    simp [none, digits_two (n := text.hour) (by omega), digits_two (n := text.minute) (by omega),
      digits_two (n := text.second) (by omega), colon, notDone,
      lastByte_cons_append _ (notEmpty _), last, fraction_firstSix none valid.isDigit]

end IsoText

/-- An offset in hours and minutes is read as one. -/
theorem Zone.readTime_rest {behind : Bool} {hours minutes : Nat}
    (valid : (Zone.offset behind hours minutes).Valid)
    : Time.readTime (Zone.offset behind hours minutes).rest Time.endOfText
      = some ({ hour := hours, minute := minutes }, true) := by
  have hours_lt := valid.1
  have minutes_lt := valid.2
  have colon (rest : List Char) : Time.nextChar (':' :: rest) Time.endOfText = ':' := rfl
  have done : Time.nextChar [] Time.endOfText = Time.endOfText := rfl
  have last : Time.lastByte [] = true := rfl
  rw [Zone.rest, Time.readTime]
  simp [digits_two (n := hours) (by omega), digits_two_end (n := minutes) (by omega),
    lastByte_cons_two, colon, done, last]

namespace IsoText

/-- A time of day with an offset is read to the microsecond. -/
theorem Valid.readClock_clockText (valid : text.Valid) {behind : Bool} {hours minutes : Nat}
    (zone : text.zone.asOffset = .offset behind hours minutes)
    : Time.readClock (clockText text.hour text.minute text.second ++ text.extended.fraction
        ++ text.zone.asOffset.chars)
      = some (text.time, some text.zone.micros) := by
  have isDigit {c : Char} (digit : c.isDigit = true)
      : (!(c == '+' || c == '-' || c == 'Z')) = true := by
    simp [Text.ne_of_isDigit digit '+' rfl, Text.ne_of_isDigit digit '-' rfl,
      Text.ne_of_isDigit digit 'Z' rfl]
  have noZone : ∀ c ∈ clockText text.hour text.minute text.second ++ text.extended.fraction,
      (!(c == '+' || c == '-' || c == 'Z')) = true := by
    intro c member
    rcases List.mem_append.mp member with clock | part
    · rcases isDigit_of_mem_clockText clock with digit | rfl
      · exact isDigit digit
      · rfl
    · rcases valid.extended.isDigit_of_mem_fraction part with digit | rfl
      · exact isDigit digit
      · rfl
  have mark : (Zone.offset behind hours minutes).mark = '+'
      ∨ (Zone.offset behind hours minutes).mark = '-' := by
    cases behind
    · exact .inl rfl
    · exact .inr rfl
  have validZone : (Zone.offset behind hours minutes).Valid := zone ▸ valid.extended.zone
  have notZone : ¬(!((Zone.offset behind hours minutes).mark == '+'
      || (Zone.offset behind hours minutes).mark == '-'
      || (Zone.offset behind hours minutes).mark == 'Z')) = true := by
    rcases mark with plus | minus
    · simp [plus]
    · simp [minus]
  have total : (if hours * 3600 + minutes * 60 + 0 = 0 then 0
      else (hours * 3600 + minutes * 60 + 0) * 1000000 + 0)
      = (hours * 3600 + minutes * 60) * 1000000 := by
    split <;> omega
  rw [Time.readClock, zone, Zone.chars_eq]
  dsimp only
  rw [List.takeWhile_append_of_pos noZone, List.dropWhile_append_of_pos noZone,
    List.takeWhile_cons_of_neg (by exact notZone),
    List.dropWhile_cons_of_neg (by exact notZone), List.append_nil]
  simp only [valid.readTime_clockText mark, Zone.readTime_rest validZone, Option.bind_eq_bind,
    Option.bind_some, total]
  rw [← Zone.micros_asOffset, zone]
  cases behind <;> rfl

/-- The date of an instant. -/
theorem Valid.readDate_eq (valid : text.Valid) (rest : List Char)
    : Time.readDate 10 (Text.padded 4 text.date.year ++ '-' :: two text.date.month
        ++ '-' :: two text.date.day ++ rest)
      = some (.monthly text.date.year text.date.month text.date.day) := by
  have split : Text.padded 4 text.date.year ++ '-' :: two text.date.month
        ++ '-' :: two text.date.day ++ rest
      = Text.padded 4 text.date.year ++ '-' :: (two text.date.month
        ++ '-' :: (two text.date.day ++ rest)) := by
    simp
  have year_le := valid.date.year_le
  have month_le := valid.date.month_le
  have day_lt := valid.day_lt
  rw [split, Time.readDate, digits_padded (by decide) (by omega)]
  simp only [Option.bind_eq_bind, Option.bind_some, List.head?_cons, beq_self_eq_true,
    Time.hyphen]
  split
  case h_1 week same =>
    -- a month begins with a digit
    have first : 'W' ∈ two text.date.month := by
      obtain ⟨a, b, pair⟩ := List.length_eq_two.mp (length_two (n := text.date.month) (by omega))
      rw [pair] at same ⊢
      rw [(List.cons.inj same).1]
      exact List.mem_cons_self
    cases isDigit_of_mem_two first
  case h_2 =>
    simp only [digits_two (n := text.date.month) (by omega),
      digits_two (n := text.date.day) (by omega), Option.bind_some]
    rfl

end IsoText

/-- What separates a date with hyphens from the clock is at place ten. -/
theorem separatorPlace_eq_ten {text : List Char} (long : 7 < text.length)
    (hyphen : text[4]? = some '-') {c : Char} (next : text[5]? = some c)
    (isDigit : c.isDigit = true)
    : Time.separatorPlace text = some 10 := by
  have notWeek : (c == 'W') = false := by
    simpa using Text.ne_of_isDigit isDigit 'W' rfl
  simp only [Time.separatorPlace, if_neg (Nat.ne_of_gt long), hyphen, next, Option.map_some,
    Option.getD_some, beq_self_eq_true, if_true, notWeek]
  rfl

namespace IsoText

/-- An instant in the extended form is split into its parts. -/
theorem Valid.written_extended (valid : text.Valid)
    : Time.written text.extended.chars
      = some (.monthly text.date.year text.date.month text.date.day, text.time,
        some text.zone.micros) := by
  obtain ⟨behind, hours, minutes, zone⟩ : ∃ behind hours minutes,
      text.zone.asOffset = .offset behind hours minutes := by
    cases text.zone with
    | utc => exact ⟨false, 0, 0, rfl⟩
    | offset behind hours minutes => exact ⟨behind, hours, minutes, rfl⟩
  have clock := valid.readClock_clockText zone
  have date := valid.readDate_eq ('T' :: (clockText text.hour text.minute text.second
    ++ text.extended.fraction ++ text.zone.asOffset.chars))
  have split : text.extended.chars
      = Text.padded 4 text.date.year ++ '-' :: two text.date.month ++ '-' :: two text.date.day
        ++ 'T' :: (clockText text.hour text.minute text.second ++ text.extended.fraction
          ++ text.zone.asOffset.chars) := by
    simp only [chars, upToSeconds, List.append_assoc, List.cons_append]
    rfl
  rw [split]
  generalize clockText text.hour text.minute text.second ++ text.extended.fraction
    ++ text.zone.asOffset.chars = rest at date clock
  have yearSize : (Text.padded 4 text.date.year).length = 4 :=
    Text.length_padded 4 _ (by decide) (by have := valid.date.year_le; omega)
  have monthSize := length_two (n := text.date.month) (by have := valid.date.month_le; omega)
  have daySize := length_two (n := text.date.day) (by have := valid.day_lt; omega)
  have monthDigits := fun c => isDigit_of_mem_two (n := text.date.month) (c := c)
  generalize Text.padded 4 text.date.year = y, two text.date.month = m,
    two text.date.day = d at *
  obtain ⟨m₁, m₂, rfl⟩ := List.length_eq_two.mp monthSize
  obtain ⟨d₁, d₂, rfl⟩ := List.length_eq_two.mp daySize
  match y, yearSize with
  | [y₁, y₂, y₃, y₄], _ =>
    have long
        : 7 < ([y₁, y₂, y₃, y₄] ++ '-' :: [m₁, m₂] ++ '-' :: [d₁, d₂]
            ++ 'T' :: rest).length := by
      simp
    have place := separatorPlace_eq_ten long rfl (c := m₁) rfl (monthDigits m₁ (by simp))
    have after
        : ([y₁, y₂, y₃, y₄] ++ '-' :: [m₁, m₂] ++ '-' :: [d₁, d₂] ++ 'T' :: rest).drop 11
          = rest := rfl
    rw [Time.written, if_neg (by omega)]
    simp only [Option.bind_eq_bind, place, date, Option.bind_some, after, clock]
    rw [if_neg (by simp)]
    rfl

/-- The fields of an instant pass the checks on dates and times. -/
theorem Valid.checkDate_eq (valid : text.Valid)
    : Time.checkDate (.monthly text.date.year text.date.month text.date.day) = .ok text.date := by
  have := valid.date.year_pos
  have := valid.date.month_pos
  have := valid.date.month_le
  have := valid.date.day_pos
  have := valid.date.day_le
  rw [Time.checkDate, if_neg (by omega), if_neg (by simp; omega), if_neg (by simp; omega)]
  rfl

/-- The time of a valid text passes its check. -/
theorem Valid.checkTime_eq (valid : text.Valid)
    : Time.checkTime text.time = .ok () := by
  have := valid.hour_lt
  have := valid.minute_lt
  have := valid.second_lt
  rw [Time.checkTime, time, if_neg (by simp; omega), if_neg (by simp; omega),
    if_neg (by simp; omega)]

/-- The offset of a valid text passes its check. -/
theorem Valid.checkOffset_eq (valid : text.Valid)
    : Time.checkOffset (some text.zone.micros) = .ok () := by
  have small : text.zone.micros.natAbs < 86400000000 := by
    have zone := valid.zone
    cases same : text.zone with
    | utc => decide
    | offset behind hours minutes =>
        rw [same] at zone
        have := zone.1
        have := zone.2
        cases behind <;> simp [Zone.micros, Text.applySign] <;> omega
  have inDay : ¬Time.dayMicros ≤ (text.zone.micros.natAbs : Int) := by
    rw [Time.dayMicros]
    omega
  rw [Time.checkOffset, if_neg inDay]

/-- An instant in the extended form is read to the microsecond. -/
theorem Valid.readIso_extended (valid : text.Valid)
    : Time.readIso text.extended.chars
      = .ok (.ofFields text.date text.hour text.minute text.second (microsOf text.digits)
        (some text.zone.micros)) := by
  rw [Time.readIso, valid.written_extended]
  dsimp only
  rw [valid.checkOffset_eq, valid.checkDate_eq]
  dsimp only [bind, Except.bind]
  rw [valid.checkTime_eq]
  rfl

end IsoText

end DeltaFeed.Marker
