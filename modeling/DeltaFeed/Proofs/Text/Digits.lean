import DeltaFeed.Text.Numeral
import Mathlib.Algebra.Group.Nat.Defs
import Mathlib.Data.List.Induction

/-! Decimal digits that are written and read. A padded numeral has digits only, and stands for the
number that it writes.
-/

namespace DeltaFeed.Text

variable {n width : Nat} {c : Char} {text : List Char}

/-- The value of an ASCII digit is found under all names of digits. -/
theorem asciiValue?_of_isDigit (h : c.isDigit = true)
    : asciiValue? c = some (c.toNat - '0'.toNat) := by
  have range : '0' ≤ c ∧ c ≤ '9' := Char.isDigit_iff_toNat.mp h
  rw [asciiValue?, if_pos (by simpa using range)]
  rfl

/-- The value of a digit is its distance from zero. -/
theorem decimalValue?_of_isDigit (h : c.isDigit = true)
    : decimalValue? c = some (c.toNat - '0'.toNat) := by
  have range : 0x30 ≤ c.toNat ∧ c.toNat ≤ 0x30 + 9 := Char.isDigit_iff_toNat.mp h
  rw [decimalValue?, decimalZeros, List.find?_cons_of_pos (by simpa using range)]
  rfl

theorem isDecimal_of_isDigit (h : c.isDigit = true)
    : isDecimal c = true := by
  rw [isDecimal, decimalValue?_of_isDigit h]
  rfl

/-- Of the ASCII characters the decimal digits are the only digits. -/
theorem isDigit_of_ascii (ascii : c.toNat < 128) (h : isDigit c = true)
    : c.isDigit = true := by
  have others : ∀ start ∈ decimalZeros, start = 0x30 ∨ 128 ≤ start := by decide
  have marks : ∀ range ∈ digitMarks, 128 ≤ range.1 := by decide
  rw [isDigit, Bool.or_eq_true, isDecimal, decimalValue?, Option.isSome_map] at h
  rcases h with decimal | mark
  · obtain ⟨start, member, range⟩ := List.find?_isSome.mp decimal
    simp only [Bool.and_eq_true, decide_eq_true_eq] at range
    rcases others start member with rfl | beyond
    · exact Char.isDigit_iff_toNat.mpr range
    · omega
  · obtain ⟨range, member, inside⟩ := List.any_eq_true.mp mark
    have beyond := marks range member
    simp only [Bool.and_eq_true, decide_eq_true_eq] at inside
    omega

/-- A digit is none of the other characters. -/
theorem ne_of_isDigit (h : c.isDigit = true) (other : Char) (not : other.isDigit = false)
    : c ≠ other := by
  intro same
  subst same
  rw [h] at not
  cases not

theorem isWhite_of_isDigit (digit : c.isDigit = true)
    : isWhite c = false := by
  have range : 0x30 ≤ c.toNat ∧ c.toNat ≤ 0x39 := Char.isDigit_iff_toNat.mp digit
  simp only [isWhite, Bool.or_eq_false_iff, Bool.and_eq_false_iff, decide_eq_false_iff_not,
    beq_eq_false_iff_ne]
  omega

theorem isBlank_of_isDigit (digit : c.isDigit = true)
    : isBlank c = false := by
  have range : 0x30 ≤ c.toNat ∧ c.toNat ≤ 0x39 := Char.isDigit_iff_toNat.mp digit
  simp only [isBlank, isWhite_of_isDigit digit, Bool.false_or, Bool.and_eq_false_iff,
    decide_eq_false_iff_not]
  omega

/-- A padded number has digits alone. -/
theorem isDigit_of_mem_padded (member : c ∈ padded width n)
    : c.isDigit = true := by
  rcases List.mem_append.mp member with zero | digit
  · rw [List.eq_of_mem_replicate zero]
    rfl
  · exact Nat.isDigit_of_mem_toDigits (by decide) (by decide) digit

/-- A number that fits is padded to its width. -/
theorem length_padded (width n : Nat) (positive : 0 < width) (small : n < 10 ^ width)
    : (padded width n).length = width := by
  have fits := (Nat.length_toDigits_le_iff (b := 10) (by decide) positive).mpr small
  rw [padded, List.length_leftpad, Nat.max_eq_left fits]

theorem padded_ne_nil (width n : Nat)
    : padded width n ≠ [] := by
  simp [padded, List.leftpad]

/-- A padded number is read back. -/
theorem ofDigitChars_padded (width n : Nat)
    : Nat.ofDigitChars 10 (padded width n) 0 = n := by
  simp [padded, List.leftpad, Nat.ofDigitChars_append]

/-- A number is determined by its padded form. -/
theorem padded_inj {m : Nat} (h : padded width m = padded width n)
    : m = n := by
  rw [← ofDigitChars_padded width m, h, ofDigitChars_padded]

/-- A further digit counts the others tenfold. -/
theorem ofDigitChars_concat (text : List Char) (c : Char)
    : Nat.ofDigitChars 10 (text ++ [c]) 0
      = 10 * Nat.ofDigitChars 10 text 0 + (c.toNat - '0'.toNat) := by
  rw [Nat.ofDigitChars_append]
  rfl

/-- Digits write a number below the power of ten of their count. -/
theorem ofDigitChars_lt (isDigit : ∀ c ∈ text, c.isDigit = true)
    : Nat.ofDigitChars 10 text 0 < 10 ^ text.length := by
  induction text using List.reverseRecOn with
  | nil => decide
  | append_singleton text c ih =>
      have before := ih fun c member => isDigit c (List.mem_append_left _ member)
      have digit : 0x30 ≤ c.toNat ∧ c.toNat ≤ 0x39 :=
        Char.isDigit_iff_toNat.mp (isDigit c (by simp))
      have zero : '0'.toNat = 0x30 := rfl
      rw [ofDigitChars_concat, List.length_append, List.length_singleton, Nat.pow_succ]
      omega

/-- A digit is that of its value. -/
theorem digitChar_of_isDigit (h : c.isDigit = true)
    : Nat.digitChar (c.toNat - '0'.toNat) = c := by
  have range : 0x30 ≤ c.toNat ∧ c.toNat ≤ 0x39 := Char.isDigit_iff_toNat.mp h
  have zero : '0'.toNat = 0x30 := rfl
  have all : ∀ d < 10, (Nat.digitChar d).toNat = d + '0'.toNat := by decide
  refine Char.toNat_inj.mp ?_
  rw [all _ (by omega)]
  omega

/-- Zero is padded with zeros. -/
theorem padded_zero (positive : 0 < width)
    : padded width 0 = List.replicate width '0' := by
  obtain ⟨width, rfl⟩ := Nat.exists_eq_succ_of_ne_zero (Nat.ne_of_gt positive)
  rw [padded, List.leftpad, Nat.toDigits_of_lt_base (by decide), List.replicate_succ']
  rfl

/-- A padded numeral grows by its last digit. -/
theorem padded_concat (positive : 0 < width) (n : Nat) {d : Nat} (digit : d < 10)
    : padded (width + 1) (10 * n + d) = padded width n ++ [Nat.digitChar d] := by
  by_cases zero : n = 0
  · subst zero
    rw [padded_zero positive, padded, Nat.mul_zero, Nat.zero_add, Nat.toDigits_of_lt_base digit]
    rfl
  · rw [padded, padded, ← Nat.toDigits_append_toDigits (by decide) (by omega) digit,
      Nat.toDigits_of_lt_base digit]
    simp [List.leftpad]

/-- A text of digits is the padded numeral of the number that it writes. -/
theorem padded_ofDigitChars (isDigit : ∀ c ∈ text, c.isDigit = true) (nonempty : text ≠ [])
    : padded text.length (Nat.ofDigitChars 10 text 0) = text := by
  induction text using List.reverseRecOn with
  | nil => exact absurd rfl nonempty
  | append_singleton text c ih =>
      have isLast := isDigit c (by simp)
      have digit : c.toNat - '0'.toNat < 10 := by
        have range : 0x30 ≤ c.toNat ∧ c.toNat ≤ 0x39 := Char.isDigit_iff_toNat.mp isLast
        have zero : '0'.toNat = 0x30 := rfl
        omega
      rw [ofDigitChars_concat, List.length_append, List.length_singleton]
      by_cases first : text = []
      · subst first
        rw [padded, Nat.ofDigitChars_nil, Nat.mul_zero, Nat.zero_add,
          Nat.toDigits_of_lt_base digit, digitChar_of_isDigit isLast]
        rfl
      · rw [padded_concat (List.length_pos_iff.mpr first) _ digit, digitChar_of_isDigit isLast,
          ih (fun c member => isDigit c (List.mem_append_left _ member)) first]

/-- A number is determined by its padded form, also with a sign. -/
theorem signedPadded_inj {m n : Int} (h : signedPadded width m = signedPadded width n)
    : m = n := by
  have noMinus {width k : Nat} {rest : List Char} : padded width k ≠ '-' :: rest := by
    intro same
    have minus : '-' ∈ padded width k := same ▸ List.mem_cons_self
    cases isDigit_of_mem_padded minus
  cases m with
  | ofNat m =>
      cases n with
      | ofNat n => exact congrArg Int.ofNat (padded_inj h)
      | negSucc n => exact absurd h noMinus
  | negSucc m =>
      cases n with
      | ofNat n => exact absurd h.symm noMinus
      | negSucc n =>
          have := padded_inj (List.cons.inj h).2
          exact congrArg Int.negSucc (Nat.add_right_cancel this)

/-- A numeral has digits and at most a sign. -/
theorem isDigit_of_mem_signedPadded {n : Int} (member : c ∈ signedPadded width n)
    : c.isDigit = true ∨ c = '-' := by
  cases n with
  | ofNat n => exact Or.inl (isDigit_of_mem_padded member)
  | negSucc n =>
      rcases List.mem_cons.mp member with minus | digit
      · exact Or.inr minus
      · exact Or.inl (isDigit_of_mem_padded digit)

/-- Digits are read as the number that they write, after the value so far. -/
theorem moreDigits_of_isDigit (isDigit : ∀ c ∈ text, c.isDigit = true) (value : Nat)
    : moreDigits value text = some (Nat.ofDigitChars 10 text value) := by
  induction text generalizing value with
  | nil => rfl
  | cons c rest ih =>
      have digit := isDigit c List.mem_cons_self
      have later := ih fun c member => isDigit c (List.mem_cons_of_mem _ member)
      rw [moreDigits, decimalValue?_of_isDigit digit, Option.bind_some, later,
        Nat.ofDigitChars_cons]
      · rintro d more rfl
        cases digit

/-- A text of digits is read as the number that it writes. -/
theorem readNatural_of_isDigit (isDigit : ∀ c ∈ text, c.isDigit = true) (nonempty : text ≠ [])
    : readNatural text = some (Nat.ofDigitChars 10 text 0) := by
  cases text with
  | nil => exact absurd rfl nonempty
  | cons c rest =>
      have later := moreDigits_of_isDigit
        (fun c member => isDigit c (List.mem_cons_of_mem _ member)) (c.toNat - '0'.toNat)
      rw [readNatural, decimalValue?_of_isDigit (isDigit c List.mem_cons_self), Option.bind_some,
        later, Nat.ofDigitChars_cons, Nat.mul_zero, Nat.zero_add]

/-- Nothing is trimmed from digits. -/
theorem trimBy_of_isDigit (isDigit : ∀ c ∈ text, c.isDigit = true)
    : trimBy isWhite text = text :=
  trimBy_eq_self
    (fun c head => isWhite_of_isDigit (isDigit c (List.mem_of_head? head)))
    (fun c last => isWhite_of_isDigit (isDigit c (List.mem_of_getLast? last)))

/-- Digits have no sign. -/
theorem splitSign_of_isDigit (isDigit : ∀ c ∈ text, c.isDigit = true)
    : splitSign text = (false, text) := by
  unfold splitSign
  split
  case h_1 rest => cases isDigit '-' List.mem_cons_self
  case h_2 rest => cases isDigit '+' List.mem_cons_self
  case h_3 => rfl

end DeltaFeed.Text
