import DeltaFeed.Text.Numeral

/-! Binary floating-point numbers of 64 bits, kept as an exact sign, mantissa and exponent.
Every operation is exact arithmetic on integers followed by at most one rounding, to nearest
with ties to even.
-/

namespace DeltaFeed.Decimal

/-- A double: (finite negative m e) is m·2^e with its sign, where m < 2^53, e ≥ -1074, and
m ≥ 2^52 unless e = -1074.
-/
inductive Binary64 where
  | finite (negative : Bool) (mantissa : Nat) (exponent : Int)
  | infinite (negative : Bool)
  | nan
deriving DecidableEq, Repr, Inhabited

/-- (roundHalfEven num den) is the integer nearest to num/den, an even one when two are. -/
def roundHalfEven (num den : Nat) : Nat :=
  let q := num / den
  let twice := 2 * (num % den)
  if twice < den then q
  else if den < twice then q + 1
  else if q % 2 = 0 then q else q + 1

/-- (scaleUp n e) is n·2^e for e ≥ 0, and n otherwise. -/
def scaleUp (n : Nat) (e : Int) : Nat :=
  n * Nat.pow 2 e.toNat

namespace Binary64

/-- The least exponent, that of zero and the subnormal numbers. -/
def minExponent : Int := -1074

def maxExponent : Int := 971

def signedZero (negative : Bool) : Binary64 :=
  .finite negative 0 minExponent

/-- (exponentFor num den) is the exponent at which num/den has a mantissa of 53 bits, or the
least exponent if it has none.
-/
def exponentFor (num den : Nat) : Int :=
  let guess : Int := (Nat.log2 num : Int) - Nat.log2 den - 52
  let full := Nat.pow 2 52 * scaleUp den guess ≤ scaleUp num (-guess)
  max minExponent (if full then guess else guess - 1)

/-- (ofRatio negative num den) is the double nearest to ±num/den, for den > 0. -/
def ofRatio (negative : Bool) (num den : Nat) : Binary64 :=
  if num = 0 then signedZero negative
  else
    let e := exponentFor num den
    let m := roundHalfEven (scaleUp num (-e)) (scaleUp den e)
    let (m, e) := if m = Nat.pow 2 53 then (Nat.pow 2 52, e + 1) else (m, e)
    if maxExponent < e then .infinite negative else .finite negative m e

/-- (ofDecimal negative digits exponent) is the double nearest to ±digits·10^exponent. Far
outside the range of the doubles only the side matters.
-/
def ofDecimal (negative : Bool) (digits : Nat) (exponent : Int) : Binary64 :=
  let size : Int := (Nat.toDigits 10 digits).length + exponent
  if digits = 0 then signedZero negative
  else if 400 < size then .infinite negative
  else if size < -400 then signedZero negative
  else ofRatio negative (digits * Nat.pow 10 exponent.toNat) (Nat.pow 10 (-exponent).toNat)

def isFinite : Binary64 → Bool
  | .finite .. => true
  | _ => false

def isZero : Binary64 → Bool
  | .finite _ 0 _ => true
  | _ => false

def isPositive : Binary64 → Bool
  | .finite negative m _ => !negative && m != 0
  | .infinite negative => !negative
  | .nan => false

/-- (parts m e) splits m·2^e into its whole part and the rest, as a numerator over 2^(-e). -/
def parts (m : Nat) (e : Int) : Nat × Nat :=
  let den := Nat.pow 2 (-e).toNat
  (scaleUp m e / den, scaleUp m e % den)

def whole? : Binary64 → Option Int
  | .finite negative m e =>
    let (n, rest) := parts m e
    if rest = 0 then some (Text.applySign negative n) else none
  | _ => none

/-- (truncate x) drops the fraction of a finite number; infinities and NaN give zero. -/
def truncate : Binary64 → Int
  | .finite negative m e => Text.applySign negative (parts m e).1
  | _ => 0

/-- (scaledRound x factor) is a finite x times a whole factor, to the nearest integer with
ties to even. The whole part of x is scaled exactly, and the product of its fraction with the
factor is itself rounded to a double before the last rounding.
-/
def scaledRound (x : Binary64) (factor : Nat) : Int :=
  match x with
  | .finite negative m e =>
    let (n, rest) := parts m e
    let product := ofRatio false (rest * factor) (Nat.pow 2 (-e).toNat)
    match product with
    | .finite _ pm pe =>
      let den := Nat.pow 2 (-pe).toNat
      Text.applySign negative (roundHalfEven (n * factor * den + scaleUp pm pe) den)
    | _ => 0
  | _ => 0

def times (x : Binary64) (n : Nat) : Binary64 :=
  match x with
  | .finite negative m e => ofRatio negative (scaleUp (m * n) e) (scaleUp 1 (-e))
  | x => x

/-- (magnitudeBelow x n) holds of a finite x with |x| < n. -/
def magnitudeBelow (x : Binary64) (n : Nat) : Bool :=
  match x with
  | .finite _ m e => (parts m e).1 < n
  | _ => false

end Binary64

def specialNumerals : List (String × (Bool → Binary64)) :=
  [("inf", .infinite), ("infinity", .infinite), ("nan", fun _ => .nan)]

/-- (digitRun text) takes the leading digits, in which single underscores may stand between two
digits, and gives their values and the rest.
-/
def digitRun : List Char → List Nat × List Char
  | [] => ([], [])
  | c :: rest =>
    match Text.decimalValue? c with
    | none => ([], c :: rest)
    | some d =>
      match rest with
      | '_' :: next :: more =>
        if Text.isDecimal next then
          let (digits, left) := digitRun (next :: more)
          (d :: digits, left)
        else ([d], rest)
      | rest =>
        let (digits, left) := digitRun rest
        (d :: digits, left)

/-- (exponentPart text) reads an optional exponent that ends the text. -/
def exponentPart : List Char → Option Int
  | [] => some 0
  | mark :: rest =>
    if mark = 'e' || mark = 'E' then
      let (negative, digits) := Text.splitSign rest
      match digitRun digits with
      | (d :: ds, []) =>
        some (Text.applySign negative ((d :: ds).foldl (fun n d => 10 * n + d) 0))
      | _ => none
    else none

def readUnsigned (negative : Bool) (text : List Char) : Option Binary64 := do
  let (whole, rest) := digitRun text
  let (fraction, rest) :=
    match rest with
    | '.' :: rest => digitRun rest
    | rest => ([], rest)
  if whole.isEmpty && fraction.isEmpty then none
  else
    let exponent ← exponentPart rest
    let digits := (whole ++ fraction).foldl (fun n d => 10 * n + d) 0
    return .ofDecimal negative digits (exponent - fraction.length)

def readFloat (text : List Char) : Option Binary64 :=
  let (negative, body) := Text.splitSign (Text.trimBy Text.isWhite text)
  match specialNumerals.lookup (String.ofList (body.map Char.toLower)) with
  | some special => some (special negative)
  | none => readUnsigned negative body

end DeltaFeed.Decimal
