import DeltaFeed.Value

/-! Tokens of JSON documents. Documents are read strictly: no comments, no leading zeros, no
control characters in texts, and no escape of half a surrogate pair.
-/

namespace DeltaFeed.Document

/-- A token: a bracket, a separator, or a value that is not composed of others. -/
inductive Token where
  | beginList
  | endList
  | beginRecord
  | endRecord
  | colon
  | comma
  | scalar (value : Value)

/-- (isSpace c) holds of the characters that may stand between tokens. -/
def isSpace (c : Char) : Bool :=
  c == ' ' || c == '\t' || c == '\n' || c == '\r'

/-- (hexUnit a b c d) is the 16-bit unit that four hexadecimal digits write. -/
def hexUnit (a b c d : Char) : Option Nat :=
  [a, b, c, d].foldlM (fun n digit => (hexDigit digit).map (16 * n + ·)) 0
where
  hexDigit (c : Char) : Option Nat :=
    if '0' ≤ c && c ≤ '9' then some (c.toNat - 48)
    else if 'a' ≤ c && c ≤ 'f' then some (c.toNat - 87)
    else if 'A' ≤ c && c ≤ 'F' then some (c.toNat - 55)
    else none

/-- (isHigh unit) holds of the units that begin a surrogate pair. -/
def isHigh (unit : Nat) : Bool := 0xd800 ≤ unit && unit < 0xdc00

/-- (isLow unit) holds of the units that end a surrogate pair. -/
def isLow (unit : Nat) : Bool := 0xdc00 ≤ unit && unit < 0xe000

/-- (escaped? c) is the character that a backslash and c stand for. -/
def escaped? (c : Char) : Option Char :=
  match c with
  | '"' => some '"'
  | '\\' => some '\\'
  | '/' => some '/'
  | 'b' => some '\x08'
  | 'f' => some '\x0c'
  | 'n' => some '\n'
  | 'r' => some '\r'
  | 't' => some '\t'
  | _ => none

/-- (textBody high rest) reads a text up to its closing quote, where high is the first unit of a
surrogate pair that is to be completed.
-/
def textBody : Option Nat → List Char → Option (List Char × List Char)
  | high, '\\' :: 'u' :: a :: b :: c :: d :: rest =>
    match hexUnit a b c d, high with
    | none, _ => none
    | some unit, some first =>
      if isLow unit then
        let code := 0x10000 + (first - 0xd800) * 0x400 + (unit - 0xdc00)
        (textBody none rest).map fun (body, left) => (Char.ofNat code :: body, left)
      else none
    | some unit, none =>
      if isHigh unit then textBody (some unit) rest
      else if isLow unit then none
      else (textBody none rest).map fun (body, left) => (Char.ofNat unit :: body, left)
  | some _, _ => none
  | none, '\\' :: c :: rest =>
    match escaped? c with
    | some plain => (textBody none rest).map fun (body, left) => (plain :: body, left)
    | none => none
  | none, '"' :: rest => some ([], rest)
  | none, c :: rest =>
    if c.toNat < 0x20 || c = '\\' then none
    else (textBody none rest).map fun (body, left) => (c :: body, left)
  | none, [] => none

def digitRun (text : List Char) : List Char × List Char :=
  (text.takeWhile Text.isAsciiDigit, text.dropWhile Text.isAsciiDigit)

def number (digits : List Char) : Nat :=
  Nat.ofDigitChars 10 digits 0

/-- (wholePart text) reads digits without a leading zero. -/
def wholePart (text : List Char) : Option (List Char × List Char) :=
  let (digits, rest) := digitRun text
  match digits with
  | [] => none
  | '0' :: _ :: _ => none
  | digits => some (digits, rest)

def fractionPart (text : List Char) : Option (Option (List Char) × List Char) :=
  match text with
  | '.' :: rest =>
    let (digits, rest) := digitRun rest
    if digits.isEmpty then none else some (some digits, rest)
  | rest => some (none, rest)

def exponentPart (text : List Char) : Option (Option Int × List Char) :=
  match text with
  | c :: rest =>
    if c = 'e' || c = 'E' then
      let (negative, rest) := Text.splitSign rest
      let (digits, rest) := digitRun rest
      if digits.isEmpty then none
      else some (some (Text.applySign negative (number digits)), rest)
    else some (none, text)
  | [] => some (none, [])

def leastInt : Int := -9223372036854775808

def greatestInt : Int := 18446744073709551615

def finite? (x : Decimal.Binary64) : Option Value :=
  if x.isFinite then some (.float x) else none

/-- (numberValue negative whole fraction exponent) is the value of a number: an integer if it is
written as one and is not too large, and else the nearest double, if that is finite.
-/
def numberValue (negative : Bool) (whole : List Char) (fraction : Option (List Char))
    (exponent : Option Int) : Option Value :=
  match fraction, exponent with
  | none, none =>
    let n := Text.applySign negative (number whole)
    if leastInt ≤ n && n ≤ greatestInt then some (.int n)
    else finite? (.ofDecimal negative (number whole) 0)
  | fraction, exponent =>
    let places := fraction.getD []
    finite? (.ofDecimal negative (number (whole ++ places))
      (exponent.getD 0 - places.length))

def numberToken (text : List Char) : Option (Value × List Char) := do
  let (negative, rest) :=
    match text with
    | '-' :: rest => (true, rest)
    | rest => (false, rest)
  let (whole, rest) ← wholePart rest
  let (fraction, rest) ← fractionPart rest
  let (exponent, rest) ← exponentPart rest
  return (← numberValue negative whole fraction exponent, rest)

/-- (token? text) reads the token at the beginning of a text that does not begin with a space.
-/
def token? (text : List Char) : Option (Token × List Char) :=
  match text with
  | '[' :: rest => some (.beginList, rest)
  | ']' :: rest => some (.endList, rest)
  | '{' :: rest => some (.beginRecord, rest)
  | '}' :: rest => some (.endRecord, rest)
  | ':' :: rest => some (.colon, rest)
  | ',' :: rest => some (.comma, rest)
  | '"' :: rest =>
    (textBody none rest).map fun (body, left) => (.scalar (.text (String.ofList body)), left)
  | 't' :: 'r' :: 'u' :: 'e' :: rest => some (.scalar (.bool true), rest)
  | 'f' :: 'a' :: 'l' :: 's' :: 'e' :: rest => some (.scalar (.bool false), rest)
  | 'n' :: 'u' :: 'l' :: 'l' :: rest => some (.scalar .null, rest)
  | text => (numberToken text).map fun (value, left) => (.scalar value, left)

theorem textBody_length {high : Option Nat} {text body left : List Char}
    (h : textBody high text = some (body, left))
    : left.length < text.length := by
  fun_induction textBody high text generalizing body left <;>
    simp_all only [Option.map_eq_some_iff, Prod.mk.injEq, Prod.exists, reduceCtorEq,
      List.length_cons, Option.some.injEq]
  case case2 ih =>
    obtain ⟨_, _, found, _, rfl⟩ := h
    have := ih found
    omega
  case case4 ih =>
    have := ih ⟨rfl, rfl⟩
    omega
  case case6 ih =>
    obtain ⟨_, _, found, _, rfl⟩ := h
    have := ih found
    omega
  case case8 ih =>
    obtain ⟨_, _, found, _, rfl⟩ := h
    have := ih found
    omega
  case case10 =>
    obtain ⟨_, rfl⟩ := h
    omega
  case case12 ih =>
    obtain ⟨_, _, found, _, rfl⟩ := h
    have := ih found
    omega

theorem wholePart_length {text digits rest : List Char}
    (h : wholePart text = some (digits, rest))
    : rest.length < text.length := by
  have total : (text.takeWhile Text.isAsciiDigit).length
      + (text.dropWhile Text.isAsciiDigit).length = text.length := by
    rw [← List.length_append, List.takeWhile_append_dropWhile]
  simp only [wholePart, digitRun] at h
  split at h
  · cases h
  · cases h
  · rename_i some_digits _
    simp only [Option.some.injEq, Prod.mk.injEq] at h
    obtain ⟨_, rfl⟩ := h
    have := List.length_pos_iff.mpr some_digits
    omega

theorem fractionPart_length {text rest : List Char} {digits : Option (List Char)}
    (h : fractionPart text = some (digits, rest))
    : rest.length ≤ text.length := by
  unfold fractionPart at h
  split at h
  · rename_i tail
    have bound : (tail.dropWhile Text.isAsciiDigit).length ≤ tail.length :=
      (List.dropWhile_sublist _).length_le
    by_cases empty : (tail.takeWhile Text.isAsciiDigit).isEmpty = true
    · simp [digitRun, empty] at h
    · simp only [digitRun, empty, Bool.false_eq_true, if_false, Option.some.injEq,
        Prod.mk.injEq] at h
      obtain ⟨_, rfl⟩ := h
      simp only [List.length_cons]
      omega
  · simp only [Option.some.injEq, Prod.mk.injEq] at h
    exact Nat.le_of_eq (by rw [h.2])

theorem length_splitSign_le (text : List Char)
    : (Text.splitSign text).2.length ≤ text.length := by
  unfold Text.splitSign
  split <;> simp

theorem exponentPart_length {text rest : List Char} {exponent : Option Int}
    (h : exponentPart text = some (exponent, rest))
    : rest.length ≤ text.length := by
  unfold exponentPart at h
  split at h
  · rename_i c tail
    split at h
    · have sign := length_splitSign_le tail
      have bound : ((Text.splitSign tail).2.dropWhile Text.isAsciiDigit).length
          ≤ (Text.splitSign tail).2.length :=
        (List.dropWhile_sublist _).length_le
      by_cases empty : ((Text.splitSign tail).2.takeWhile Text.isAsciiDigit).isEmpty = true
      · simp [digitRun, empty] at h
      · simp only [digitRun, empty, Bool.false_eq_true, if_false, Option.some.injEq,
          Prod.mk.injEq] at h
        obtain ⟨_, rfl⟩ := h
        simp only [List.length_cons]
        omega
    · simp only [Option.some.injEq, Prod.mk.injEq] at h
      exact Nat.le_of_eq (by rw [h.2])
  · simp only [Option.some.injEq, Prod.mk.injEq] at h
    exact Nat.le_of_eq (by rw [← h.2])

theorem numberToken_length {text left : List Char} {value : Value}
    (h : numberToken text = some (value, left))
    : left.length < text.length := by
  unfold numberToken at h
  simp only [Option.bind_eq_bind, Option.bind_eq_some_iff, Option.pure_def,
    Option.some.injEq, Prod.mk.injEq, Prod.exists] at h
  obtain ⟨_, afterWhole, whole, _, afterFraction, fraction, _, _, exponent, _, _, _, rfl⟩ := h
  have first := wholePart_length whole
  have second := fractionPart_length fraction
  have third := exponentPart_length exponent
  have sign : ∀ cs : List Char, (match cs with
      | '-' :: rest => (true, rest)
      | rest => (false, rest)).2.length ≤ cs.length := by
    intro cs
    split <;> simp
  have := sign text
  omega

/-- A token takes up at least one character. -/
theorem token?_length {text left : List Char} {token : Token}
    (h : token? text = some (token, left))
    : left.length < text.length := by
  unfold token? at h
  split at h
  case h_7 =>
    simp only [Option.map_eq_some_iff, Prod.mk.injEq, Prod.exists] at h
    obtain ⟨_, _, found, _, rfl⟩ := h
    have := textBody_length found
    simp only [List.length_cons]
    omega
  case h_11 =>
    simp only [Option.map_eq_some_iff, Prod.mk.injEq, Prod.exists] at h
    obtain ⟨_, _, found, _, rfl⟩ := h
    exact numberToken_length found
  all_goals
    simp only [Option.some.injEq, Prod.mk.injEq] at h
    obtain ⟨_, rfl⟩ := h
    simp only [List.length_cons]
    omega

def tokens : List Char → Option (List Token)
  | [] => some []
  | c :: rest =>
    if isSpace c then tokens rest
    else
      match _h : token? (c :: rest) with
      | none => none
      | some (token, left) => (tokens left).map (token :: ·)
termination_by text => text.length
decreasing_by
  · simp
  · exact token?_length _h

end DeltaFeed.Document
