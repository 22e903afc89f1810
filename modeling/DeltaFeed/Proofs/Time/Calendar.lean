import DeltaFeed.Time.Timestamp

/-! Days and dates determine each other, and so do instants and the readings of a clock.
-/

namespace DeltaFeed.Time

-----------------------------------------------------------------------------------------
-- Years
-----------------------------------------------------------------------------------------

/-- The years before a year have its mean length, to within less than two days. -/
theorem daysBeforeYear_bounds (year : Nat)
    : 146097 * (year - 1) ≤ 400 * daysBeforeYear year + 600
      ∧ 400 * daysBeforeYear year ≤ 146097 * (year - 1) + 600 := by
  simp only [daysBeforeYear]
  generalize year - 1 = y
  omega

/-- A year is a leap year if four divides it, unless it is a century that four hundred does not
divide.
-/
theorem isLeap_iff (year : Nat)
    : isLeap year = true ↔ year % 4 = 0 ∧ (year % 100 ≠ 0 ∨ year % 400 = 0) := by
  simp [isLeap]

/-- Each year adds its days, one more if it is a leap year. -/
theorem daysBeforeYear_succ {year : Nat} (positive : 1 ≤ year)
    : daysBeforeYear (year + 1) = daysBeforeYear year + if isLeap year then 366 else 365 := by
  obtain ⟨y, rfl⟩ := Nat.exists_eq_add_of_le' positive
  have fewer : y / 100 ≤ y / 4 := Nat.div_le_div_left (by decide) (by decide)
  have hundreds : (y + 1) % 100 = 0 → (y + 1) % 4 = 0 := by omega
  have cycles : (y + 1) % 400 = 0 → (y + 1) % 100 = 0 := by omega
  simp only [daysBeforeYear, Nat.add_sub_cancel, isLeap_iff, Nat.succ_div,
    Nat.dvd_iff_mod_eq_zero]
  generalize (y + 1) % 4 = a, (y + 1) % 100 = b, (y + 1) % 400 = c at *
  generalize y / 4 = d, y / 100 = e, y / 400 = f at *
  split <;> split <;> split <;> split <;> omega

/-- Each month adds its days. -/
theorem daysBeforeMonth_succ (year : Nat) {month : Nat} (positive : 1 ≤ month)
    : daysBeforeMonth year (month + 1)
      = daysBeforeMonth year month + daysInMonth year month := by
  obtain ⟨m, rfl⟩ := Nat.exists_eq_add_of_le' positive
  rfl

/-- The months make up the year. -/
theorem daysBeforeMonth_thirteen (year : Nat)
    : daysBeforeMonth year 13 = if isLeap year then 366 else 365 := by
  simp only [daysBeforeMonth, daysInMonth]
  split <;> rfl

namespace Date

/-- A day lies in the year that is found for it. -/
theorem yearOf_spec (n : Nat)
    : 1 ≤ yearOf n ∧ daysBeforeYear (yearOf n) ≤ n ∧ n < daysBeforeYear (yearOf n + 1) := by
  have first : daysBeforeYear 1 = 0 := rfl
  unfold yearOf
  dsimp only
  generalize guessed : n * 400 / 146097 = g
  split
  case isTrue late =>
    have := daysBeforeYear_bounds (g + 1 + 1 + 1)
    exact ⟨by omega, late, by omega⟩
  case isFalse notLate =>
    split
    case isTrue early =>
      have := daysBeforeYear_bounds g
      have positive : g ≠ 0 := by
        intro same
        subst same
        exact Nat.not_lt_zero n early
      rw [Nat.add_sub_cancel]
      exact ⟨by omega, by omega, early⟩
    case isFalse notEarly => exact ⟨by omega, by omega, by omega⟩

-----------------------------------------------------------------------------------------
-- Months and days
-----------------------------------------------------------------------------------------

/-- The month and the day that are found exist, and lie as many days after the beginning of the
year.
-/
theorem monthAndDay_spec (year month left fuel : Nat) (positive : 1 ≤ month)
    (enough : month + fuel = 12)
    (inYear : daysBeforeMonth year month + left < daysBeforeMonth year 13)
    : let found := monthAndDay year month left fuel
      (1 ≤ found.1 ∧ found.1 ≤ 12)
      ∧ (1 ≤ found.2 ∧ found.2 ≤ daysInMonth year found.1)
      ∧ daysBeforeMonth year found.1 + (found.2 - 1) = daysBeforeMonth year month + left := by
  induction fuel generalizing month left with
  | zero =>
      obtain rfl : month = 12 := by omega
      have last : daysBeforeMonth year 13 = daysBeforeMonth year 12 + daysInMonth year 12 := rfl
      exact ⟨by simp [monthAndDay], by simp only [monthAndDay]; omega, rfl⟩
  | succ fuel ih =>
      have next := daysBeforeMonth_succ year positive
      rw [monthAndDay]
      split
      case isTrue here => exact ⟨⟨positive, by omega⟩, ⟨by omega, here⟩, rfl⟩
      case isFalse beyond =>
        obtain ⟨inYear', exists', same⟩ :=
          ih (month + 1) (left - daysInMonth year month) (by omega) (by omega) (by omega)
        exact ⟨inYear', exists', same.trans (by omega)⟩

/-- The date of a day exists and is the date of that day, in the year that holds it. -/
theorem ofDayNumber_spec (n : Nat)
    : let date := ofDayNumber n
      date.dayNumber = n
      ∧ (1 ≤ date.month ∧ date.month ≤ 12)
      ∧ (1 ≤ date.day ∧ date.day ≤ daysInMonth date.year date.month)
      ∧ 1 ≤ date.year
      ∧ daysBeforeYear date.year ≤ n := by
  obtain ⟨positive, begun, notOver⟩ := yearOf_spec n
  rw [daysBeforeYear_succ positive, ← daysBeforeMonth_thirteen] at notOver
  have january : daysBeforeMonth (yearOf n) 1 = 0 := rfl
  obtain ⟨month, day, same⟩ := monthAndDay_spec (yearOf n) 1 (n - daysBeforeYear (yearOf n)) 11
    (by decide) (by decide) (by omega)
  refine ⟨?_, month, day, positive, begun⟩
  simp only [ofDayNumber, dayNumber, Nat.add_assoc, same]
  omega

end Date

-----------------------------------------------------------------------------------------
-- Clocks
-----------------------------------------------------------------------------------------

namespace Timestamp

variable {micros : Int}

/-- The day and the microseconds of the day make up an instant. -/
theorem instant_eq (h : Representable micros)
    : micros
      = ((Int.fdiv micros dayMicros + epochDay).toNat - epochDay) * dayMicros
        + ((utc micros).dayMicro : Nat) := by
  have split := Int.mul_fdiv_add_fmod micros dayMicros
  have positive : (0 : Int) ≤ Int.fmod micros dayMicros := Int.fmod_nonneg_of_pos _ (by decide)
  have day : 0 ≤ Int.fdiv micros dayMicros + epochDay := by
    have := Int.fmod_lt_of_pos micros (b := dayMicros) (by decide)
    simp only [Representable, firstInstant, dayMicros, epochDay] at *
    omega
  rw [Int.toNat_of_nonneg day]
  simp only [dayMicro, utc, dayMicros, epochDay] at *
  omega

/-- A representable instant lies in one of the years to 9999. -/
theorem year_utc_le (h : Representable micros)
    : (utc micros).date.year ≤ 9999 := by
  obtain ⟨_, _, _, _, begun⟩ :=
    Date.ofDayNumber_spec (Int.fdiv micros dayMicros + epochDay).toNat
  have bounds := daysBeforeYear_bounds (utc micros).date.year
  have whole := instant_eq h
  have := h.2
  simp only [lastInstant, dayMicros, epochDay, date, utc] at *
  omega

/-- The fields of a clock in UTC make up the instant that it shows. -/
theorem ofFields_utc (h : Representable micros)
    : let t := utc micros
      ofFields t.date t.clock.1 t.clock.2.1 t.clock.2.2 t.microsecond (some 0) = t := by
  obtain ⟨sameDay, _⟩ :=
    Date.ofDayNumber_spec (Int.fdiv micros dayMicros + epochDay).toNat
  have whole := instant_eq h
  have seconds : (utc micros).dayMicro / 1000000 / 3600 * 3600
      + (utc micros).dayMicro / 1000000 / 60 % 60 * 60 + (utc micros).dayMicro / 1000000 % 60
      = (utc micros).dayMicro / 1000000 := by
    generalize (utc micros).dayMicro / 1000000 = s
    omega
  have parts : (utc micros).dayMicro / 1000000 * 1000000 + (utc micros).dayMicro % 1000000
      = (utc micros).dayMicro := Nat.div_add_mod' _ _
  have wall : (((utc micros).date.dayNumber : Int) - epochDay) * dayMicros
      + ((utc micros).dayMicro : Nat) = micros := by
    rw [date, utc, sameDay]
    exact whole.symm
  simp only [ofFields, clock, microsecond, seconds, parts, wall]
  rfl

/-- A clock that shows UTC shows its instant. -/
theorem utc_instant {t : Timestamp} (inUtc : t.offset = some 0)
    : utc t.instant = t := by
  obtain ⟨wall, offset⟩ := t
  obtain rfl : offset = some 0 := inUtc
  exact congrArg utc (Int.sub_zero wall)

/-- An instant in UTC stays as it is. -/
theorem toUtc_utc (h : Representable micros)
    : (utc micros).toUtc = .ok (utc micros) := by
  have same : (utc micros).instant = micros := Int.sub_zero micros
  rw [toUtc, same, ofInstant, if_pos h]

protected theorem not_le {a b : Timestamp}
    : ¬a ≤ b ↔ b < a :=
  Int.not_le

/-- What was brought to UTC stays as it is. -/
theorem toUtc_of_toUtc {t now : Timestamp} (h : t.toUtc = .ok now)
    : now.toUtc = .ok now := by
  unfold toUtc ofInstant at h
  split at h
  case isFalse => cases h
  case isTrue representable =>
    cases h
    exact toUtc_utc representable

end Timestamp

end DeltaFeed.Time
