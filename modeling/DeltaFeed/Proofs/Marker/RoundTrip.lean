import DeltaFeed.Proofs.Marker.Reading

/-! A marker denotes the instant that it was written for, to the millisecond: what is written of
an instant in the years from 1000 on is read back as the same instant, with a fraction or
without. A sync goes on from that instant, or from one that is some hours before it.
-/

namespace DeltaFeed.Marker

open Time (Timestamp)

variable {micros millis : Int}

-----------------------------------------------------------------------------------------
-- The text of a marker
-----------------------------------------------------------------------------------------

/-- (textOf t) is the text of the marker of an instant, given in UTC. -/
def textOf (t : Timestamp) : IsoText where
  date := t.date
  hour := t.clock.1
  minute := t.clock.2.1
  second := t.clock.2.2
  digits := if t.microsecond = 0 then [] else Text.padded 3 (t.microsecond / 1000)
  zone := .utc

theorem microsecond_lt (t : Timestamp)
    : t.microsecond < 1000000 :=
  Nat.mod_lt _ (by decide)

/-- The fields of a clock in UTC are in range. -/
theorem valid_textOf (h : Time.Representable micros)
    : (textOf (.utc micros)).Valid := by
  obtain ⟨_, ⟨month_pos, month_le⟩, ⟨day_pos, day_le⟩, year_pos, _⟩ :=
    Time.Date.ofDayNumber_spec (Int.fdiv micros Time.dayMicros + Time.epochDay).toNat
  have inDay : (Timestamp.utc micros).dayMicro < 86400000000 := by
    have := Int.fmod_lt_of_pos micros (b := Time.dayMicros) (by decide)
    have := Int.fmod_nonneg_of_pos micros (b := Time.dayMicros) (by decide)
    simp only [Timestamp.dayMicro, Timestamp.utc, Time.dayMicros] at *
    omega
  constructor
  case date =>
    exact ⟨year_pos, Timestamp.year_utc_le h, month_pos, month_le, day_pos, day_le⟩
  case hour_lt => simp only [textOf, Timestamp.clock]; omega
  case minute_lt => simp only [textOf, Timestamp.clock]; omega
  case second_lt => simp only [textOf, Timestamp.clock]; omega
  case isDigit =>
    intro c member
    simp only [textOf] at member
    split at member
    case isTrue => cases member
    case isFalse => exact Text.isDigit_of_mem_padded member
  case zone => trivial

/-- From the year 1000 on, a year has its four digits without padding. -/
theorem ofUtc_eq {t : Timestamp} (late : 1000 ≤ t.date.year)
    : ofUtc t = String.ofList (textOf t).chars := by
  have size : ¬(Nat.toDigits 10 t.date.year).length ≤ 3 :=
    mt (Nat.length_toDigits_le_iff (b := 10) (by decide) (by decide)).mp (by omega)
  have year : Text.padded 4 t.date.year = Nat.toDigits 10 t.date.year := by
    rw [Text.padded, List.leftpad, Nat.sub_eq_zero_of_le (by omega)]
    rfl
  have fraction : (textOf t).fraction
      = if t.microsecond = 0 then [] else '.' :: Text.padded 3 (t.microsecond / 1000) := by
    by_cases zero : t.microsecond = 0
    · simp [IsoText.fraction, textOf, zero]
    · simp [IsoText.fraction, textOf, zero, Text.padded_ne_nil]
  rw [IsoText.chars, IsoText.upToSeconds, fraction]
  simp only [ofUtc, textOf, year]
  rfl

/-- A marker has no more than three digits to cut. -/
theorem normal_textOf (t : Timestamp)
    : (textOf t).normal = textOf t := by
  have short : (textOf t).digits.length ≤ 3 := by
    have := microsecond_lt t
    simp only [textOf]
    split
    case isTrue => decide
    case isFalse => exact Nat.le_of_eq (Text.length_padded 3 _ (by decide) (by omega))
  rw [IsoText.normal, if_neg (by omega)]

/-- The text of a marker denotes the whole milliseconds of its instant. -/
theorem micros_textOf (h : Time.Representable micros)
    : (textOf (.utc micros)).micros = 1000 * (micros / 1000) := by
  have whole := (textOf (.utc micros)).thousand_dvd_clockMicros
  have fields := Timestamp.ofFields_utc h
  have small := microsecond_lt (.utc micros)
  have parts
      : (textOf (.utc micros)).clockMicros + (Timestamp.utc micros).microsecond = micros := by
    have shown := congrArg Timestamp.wall fields
    simp only [IsoText.clockMicros, textOf, Timestamp.ofFields, Zone.micros] at shown ⊢
    simp only [Timestamp.utc] at shown ⊢
    push_cast at shown ⊢
    omega
  have digits : (microsOf (textOf (.utc micros)).digits : Int)
      = 1000 * ((Timestamp.utc micros).microsecond / 1000 : Nat) := by
    simp only [textOf]
    split
    case isTrue zero => simp [zero, microsOf_nil]
    case isFalse =>
      rw [microsOf_three (Text.length_padded 3 _ (by decide) (by omega)),
        Text.ofDigitChars_padded]
      push_cast
      rfl
  rw [IsoText.micros, digits]
  omega

-----------------------------------------------------------------------------------------
-- Markers and instants
-----------------------------------------------------------------------------------------

/-- Whole milliseconds can be represented wherever their instants can. -/
theorem representable_cut (h : Time.Representable micros)
    : Time.Representable (1000 * (micros / 1000)) := by
  simp only [Time.Representable, Time.firstInstant, Time.lastInstant] at *
  omega

/-- A marker is read as the whole milliseconds of the instant that it was written for. -/
theorem readText_ofUtc_cut (h : Time.Representable micros)
    (late : 1000 ≤ (Timestamp.utc micros).date.year)
    : readText (ofUtc (.utc micros)) = .ok (.utc (1000 * (micros / 1000))) := by
  have inYears := micros_textOf h ▸ representable_cut h
  rw [ofUtc_eq late, (valid_textOf h).readText_chars inYears, micros_textOf h]

/-- A marker is parsed as the whole milliseconds of the instant that it was written for. -/
theorem parse_yields_cut {σ : Type} {s : σ} {Q : σ → Prop} (h : Time.Representable micros)
    (late : 1000 ≤ (Timestamp.utc micros).date.year) (start : Q s)
    : (parse (.text (ofUtc (.utc micros))) : Op σ Timestamp).Yields s
        (.ok (.utc (1000 * (micros / 1000)))) Q := by
  have value := (congrArg IsoText.micros (normal_textOf (.utc micros))).trans (micros_textOf h)
  have noBlanks : ∀ c ∈ ([] ++ [] : List Char), Text.isBlank c = true := nofun
  have parsed := (valid_textOf h).parse_yields (value ▸ representable_cut h) noBlanks start
  rwa [List.nil_append, List.append_nil, ← ofUtc_eq late, value] at parsed

/-- A marker is read as the instant that it was written for, in whole milliseconds. -/
theorem readText_ofUtc (h : Time.Representable (1000 * millis))
    (late : 1000 ≤ (Timestamp.utc (1000 * millis)).date.year)
    : readText (ofUtc (Timestamp.utc (1000 * millis)))
      = .ok (Timestamp.utc (1000 * millis)) := by
  rw [readText_ofUtc_cut h late, Int.mul_ediv_cancel_left millis (by decide)]

theorem write_utc (h : Time.Representable micros)
    : write (Timestamp.utc micros) = .ok (ofUtc (Timestamp.utc micros)) := by
  rw [write, Timestamp.toUtc_utc h]
  rfl

/-- A marker is parsed as the instant that it was written for, in whole milliseconds. -/
theorem parse_yields {σ : Type} {s : σ} {Q : σ → Prop} (h : Time.Representable (1000 * millis))
    (late : 1000 ≤ (Timestamp.utc (1000 * millis)).date.year) (start : Q s)
    : (parse (.text (ofUtc (Timestamp.utc (1000 * millis)))) : Op σ Timestamp).Yields s
        (.ok (Timestamp.utc (1000 * millis))) Q := by
  have parsed : (parse (.text (ofUtc (Timestamp.utc (1000 * millis)))) : Op σ Timestamp).Yields s
      _ Q := parse_yields_cut h late start
  rwa [Int.mul_ediv_cancel_left millis (by decide)] at parsed

-----------------------------------------------------------------------------------------
-- Instants that a sync goes on from
-----------------------------------------------------------------------------------------

/-- (movedBack t hours) is an instant moved back by some hours, if they are positive. -/
def movedBack (t : Timestamp) (hours : Time.Amount) : Except Failure Timestamp :=
  if hours.isPositive then do t.back (← hours.micros Time.hourMicros) else return t

/-- Positive hours have no negative span, even where it is rounded. -/
theorem span_nonneg {hours : Time.Amount} {unit : Nat} {span : Int}
    (positive : hours.isPositive = true) (told : hours.micros unit = .ok span)
    : 0 ≤ span := by
  cases hours with
  | whole n =>
      cases told
      have : 0 < n := of_decide_eq_true positive
      exact Int.mul_nonneg (by omega) (Int.natCast_nonneg unit)
  | float x =>
      cases x with
      | nan => cases told
      | infinite negative => cases told
      | finite negative m e =>
          cases told
          have plus : negative = false := by
            cases negative with
            | false => rfl
            | true => cases positive
          subst plus
          unfold Decimal.Binary64.scaledRound
          dsimp only
          split
          · exact Int.natCast_nonneg _
          · exact Int.le_refl 0

/-- An instant is not moved forward, and it stays in UTC. -/
theorem movedBack_eq_ok {micros : Int} {now : Timestamp} {hours : Time.Amount}
    (h : Time.Representable micros) (moved : movedBack (.utc micros) hours = .ok now)
    : now ≤ .utc micros ∧ now.toUtc = .ok now := by
  unfold movedBack at moved
  split at moved
  case isTrue positive =>
    obtain ⟨span, told, back⟩ := bind_eq_ok.mp moved
    have nonneg := span_nonneg positive told
    unfold Timestamp.back at back
    dsimp only at back
    split at back
    case isFalse => cases back
    case isTrue representable =>
      cases back
      refine ⟨?_, Timestamp.toUtc_utc representable⟩
      show micros - span - 0 ≤ micros - 0
      omega
  case isFalse =>
    cases moved
    exact ⟨Int.le_refl (Timestamp.utc micros).instant, Timestamp.toUtc_utc h⟩

/-- A sync goes on from the instant for which its marker was written, moved back by some hours.
-/
theorem lastSync_yields {σ : Type} {s : σ} {Q : σ → Prop} {hours : Time.Amount}
    {now : Timestamp} (h : Time.Representable (1000 * millis))
    (late : 1000 ≤ (Timestamp.utc (1000 * millis)).date.year)
    (moved : movedBack (Timestamp.utc (1000 * millis)) hours = .ok now) (start : Q s)
    : (lastSync (.text (ofUtc (Timestamp.utc (1000 * millis)))) hours : Op σ Timestamp).Yields s
        (.ok now) Q := by
  have inUtc := (movedBack_eq_ok h moved).2
  have written : write now = .ok (ofUtc now) := by
    rw [write, inUtc]
    rfl
  have processed
      : (process (.text (ofUtc (Timestamp.utc (1000 * millis)))) hours.isPositive hours
          : Op σ Timestamp).Yields s (.ok now) Q := by
    apply Op.Yields.bind (parse_yields h late start)
    intro s start
    dsimp only
    unfold movedBack at moved
    rw [Bool.and_self]
    split at moved
    case isTrue positive =>
      obtain ⟨span, told, back⟩ := bind_eq_ok.mp moved
      rw [if_pos positive]
      have preponed
          : (prepone (Timestamp.utc (1000 * millis)) hours : Op σ Timestamp).Yields s
              (.ok now) Q := by
        unfold prepone
        rw [told]
        apply Op.Yields.bind_ofResult
        rw [back]
        exact .bind_ofResult (.bind_tell (.pure _ start))
      apply Op.Yields.bind preponed
      intro s start
      rw [write_utc h, written]
      exact .bind_ofResult (.bind_ofResult (.bind_tell (.pure _ start)))
    case isFalse none =>
      cases moved
      rw [if_neg none]
      exact .pure _ start
  apply Op.Yields.bind processed
  intro s start
  rw [written]
  exact .bind_ofResult (.bind_tell (.pure _ start))

end DeltaFeed.Marker
