import DeltaFeed.Decimal.Rounded
import DeltaFeed.Failure

/-! Layouts: how an argument of a message is written. A layout is written as a fill character and a
place, a sign, marks for zeros and prefixes, a width, a separator of groups of digits, a precision
and the letter of a kind, all of which may be missing.
-/

namespace DeltaFeed

inductive Side where
  | left
  | right
  | center
  /-- A number with its sign at the left and its digits at the right. -/
  | apart
deriving DecidableEq, Repr

/-- (Side.ofChar? c) is the place that a character stands for. -/
def Side.ofChar? (c : Char) : Option Side :=
  match c with
  | '<' => some left
  | '>' => some right
  | '^' => some center
  | '=' => some apart
  | _ => none

structure Layout where
  fill : Char
  side : Side
  sign : Option Char := none
  /-- Whether a number that is rounded to zero has no minus sign. -/
  plainZero : Bool := false
  /-- Whether the prefix of a base and the point of a float are always written. -/
  alternate : Bool := false
  width : Nat := 0
  separator : Option Char := none
  precision : Option Nat := none
  kind : Char
deriving Repr

namespace Layout

def bad {α : Type} (reason : String) : Except Failure α :=
  .error (.badValue (.badTemplate reason))

def maxNumber : Nat := 9223372036854775807

def number? (text : List Char) : Except Failure (Option Nat × List Char) :=
  let digits := text.takeWhile Text.isDecimal
  let rest := text.dropWhile Text.isDecimal
  match Text.readNatural digits with
  | none => .ok (none, rest)
  | some n =>
    if maxNumber < n then bad "Too many decimal digits in format string" else .ok (some n, rest)

def charName (c : Char) : String :=
  if 0x20 < c.toNat && c.toNat < 0x80 then s!"{c}"
  else
    let code := String.ofList (Nat.toDigits 16 c.toNat)
    s!"\\x{code}"

def take (c : Char) (text : List Char) : Bool × List Char :=
  match text with
  | first :: rest => if first = c then (true, rest) else (false, text)
  | [] => (false, [])

/-- (placement text) reads a fill character and a place. -/
def placement (text : List Char) : Option Char × Option Side × List Char :=
  match text with
  | fill :: mark :: rest =>
    match Side.ofChar? mark, Side.ofChar? fill with
    | some side, _ => (some fill, some side, rest)
    | none, some side => (none, some side, mark :: rest)
    | none, none => (none, none, text)
  | [mark] =>
    match Side.ofChar? mark with
    | some side => (none, some side, [])
    | none => (none, none, text)
  | [] => (none, none, [])

def signMark (text : List Char) : Option Char × List Char :=
  match text with
  | c :: rest => if c = '+' || c = '-' || c = ' ' then (some c, rest) else (none, text)
  | [] => (none, [])

def separatorMark (text : List Char) : Except Failure (Option Char × List Char) :=
  let (comma, text) := take ',' text
  let (score, text) := take '_' text
  if (comma && score) || (score && text.head? = some ',') then
    bad "Cannot specify both ',' and '_'."
  else if comma then .ok (some ',', text)
  else if score then .ok (some '_', text)
  else .ok (none, text)

def precisionMark (text : List Char) : Except Failure (Option Nat × List Char) := do
  match take '.' text with
  | (true, rest) =>
    let (precision, rest) ← number? rest
    if precision.isNone then bad "Format specifier missing precision"
    return (precision, rest)
  | (false, rest) => return (none, rest)

/-- (kindMark object spec standard text) reads the kind, which ends a layout. -/
def kindMark (object : String) (spec : List Char) (standard : Char) (text : List Char)
    : Except Failure Char :=
  match text with
  | [] => .ok standard
  | [kind] => .ok kind
  | _ =>
    let shown := String.ofList spec
    bad s!"Invalid format specifier '{shown}' for object of type '{object}'"

def floatKinds : List Char := ['e', 'E', 'f', 'F', 'g', 'G', '%']

/-- The kinds of floats that are written in capital letters. -/
def capitalKinds : List Char := ['E', 'F', 'G']

/-- The kinds that have groups of four digits, which only `_` separates. -/
def baseKinds : List Char := ['b', 'o', 'x', 'X']

def intKinds : List Char := 'c' :: 'd' :: 'n' :: baseKinds

/-- (layout.separable) refuses separators for kinds without groups of digits. -/
def separable (layout : Layout) : Except Failure Layout :=
  match layout.separator with
  | none => .ok layout
  | some c =>
    if layout.kind ∈ '\x00' :: 'd' :: floatKinds ∨ c = '_' ∧ layout.kind ∈ baseKinds then
      .ok layout
    else
      let kind := charName layout.kind
      bad s!"Cannot specify '{c}' with '{kind}'."

/-- (ofText object standard numeric spec) reads a layout for an object, where standard is the kind
if none is given.
-/
def ofText (object : String) (standard : Char) (numeric : Bool) (spec : List Char)
    : Except Failure Layout := do
  let (fill, side, text) := placement spec
  let (sign, text) := signMark text
  let (plainZero, text) := take 'z' text
  let (alternate, text) := take '#' text
  let (zeros, text) := if fill.isNone then take '0' text else (false, text)
  let (width, text) ← number? text
  let (separator, text) ← separatorMark text
  let (precision, text) ← precisionMark text
  let kind ← kindMark object spec standard text
  let common : Side := if !numeric then .left else if zeros then .apart else .right
  separable {
    fill := fill.getD (if zeros then '0' else ' ')
    side := side.getD common
    sign
    plainZero
    alternate
    width := width.getD 0
    separator
    precision
    kind }

def unknown {α : Type} (layout : Layout) (object : String) : Except Failure α :=
  let kind := charName layout.kind
  bad s!"Unknown format code '{kind}' for object of type '{object}'"

/-- (groups size mark room digits) are digits from the last to the first, in groups of one more
than size with a mark between them, and with zeros up to room.
-/
def groups (size : Nat) (mark : Char) (room : Nat) (digits : List Char) : List Char :=
  let count := min (size + 1) (max (max digits.length room) 1)
  let group := digits.take count
  let zeros := List.replicate (count - group.length) '0'
  if digits.length ≤ count ∧ room ≤ count then group ++ zeros
  else group ++ zeros ++ mark :: groups size mark (room - count - 1) (digits.drop count)
termination_by digits.length + room
decreasing_by
  simp only [List.length_drop]
  omega

/-- (layout.grouped size room whole) are digits with zeros and separators. -/
def grouped (layout : Layout) (size room : Nat) (whole : List Char) : List Char :=
  if whole.isEmpty then []
  else
    match layout.separator with
    | none => List.replicate (room - whole.length) '0' ++ whole
    | some mark => (groups (size - 1) mark room whole.reverse).reverse

def signOf (layout : Layout) (negative : Bool) : List Char :=
  if negative then ['-']
  else
    match layout.sign with
    | some '+' => ['+']
    | some ' ' => [' ']
    | _ => []

def maxWidth : Nat := 4294967296

def checkWidth (layout : Layout) : Except Failure Unit :=
  if maxWidth < layout.width then .error .tooLarge else .ok ()

/-- (layout.place lead body) puts a text into its width, where the lead stays at the left when
they are apart.
-/
def place (layout : Layout) (lead body : List Char) : Except Failure (List Char) := do
  layout.checkWidth
  let room := layout.width - lead.length - body.length
  let filled (n : Nat) : List Char := List.replicate n layout.fill
  match layout.side with
  | .left => return lead ++ body ++ filled room
  | .right => return filled room ++ lead ++ body
  | .center => return filled (room / 2) ++ lead ++ body ++ filled (room - room / 2)
  | .apart => return lead ++ filled room ++ body

/-- (layout.number size lead whole tail) puts a number into its width: its sign and prefix, the
digits before the point, and what follows them.
-/
def number (layout : Layout) (size : Nat) (lead whole tail : List Char)
    : Except Failure (List Char) := do
  layout.checkWidth
  let room :=
    if layout.fill = '0' && layout.side = .apart then
      layout.width - (lead.length + tail.length)
    else 0
  layout.place lead (layout.grouped size room whole ++ tail)

def text (layout : Layout) (s : List Char) : Except Failure (List Char) :=
  if layout.kind ≠ 's' then layout.unknown "str"
  else if layout.sign = some ' ' then bad "Space not allowed in string format specifier"
  else if layout.sign.isSome then bad "Sign not allowed in string format specifier"
  else if layout.plainZero then
    bad "Negative zero coercion (z) not allowed in string format specifier"
  else if layout.alternate then bad "Alternate form (#) not allowed in string format specifier"
  else if layout.side = .apart then
    bad "'=' alignment not allowed in string format specifier"
  else layout.place [] ((layout.precision.map s.take).getD s)

def charOf (layout : Layout) (n : Int) : Except Failure (List Char) :=
  if layout.sign.isSome then bad "Sign not allowed with integer format specifier 'c'"
  else if layout.alternate then
    bad "Alternate form (#) not allowed with integer format specifier 'c'"
  else if n < 0 || 0x10ffff < n then .error .outOfRange
  else layout.number 3 [] [] [Char.ofNat n.toNat]

def baseOf (kind : Char) : Nat × List Char :=
  match kind with
  | 'b' => (2, ['0', 'b'])
  | 'o' => (8, ['0', 'o'])
  | 'x' => (16, ['0', 'x'])
  | 'X' => (16, ['0', 'X'])
  | _ => (10, [])

def whole (layout : Layout) (n : Int) : Except Failure (List Char) :=
  if layout.precision.isSome then bad "Precision not allowed in integer format specifier"
  else if layout.plainZero then
    bad "Negative zero coercion (z) not allowed in integer format specifier"
  else if layout.kind = 'c' then layout.charOf n
  else
    let (base, mark) := baseOf layout.kind
    let digits := Nat.toDigits base n.natAbs
    let digits := if layout.kind = 'X' then digits.map Char.toUpper else digits
    let lead := layout.signOf (n < 0) ++ if layout.alternate then mark else []
    layout.number (if base = 10 then 3 else 4) lead digits []

/-- (layout.numeral m e) is the form of m·2^e for the kind of a layout. -/
def numeral (layout : Layout) (m : Nat) (e : Int) : Decimal.Numeral :=
  let (num, den) := (Decimal.scaleUp m e, Decimal.scaleUp 1 (-e))
  let places := layout.precision.getD 6
  match layout.kind, layout.precision with
  | '\x00', none => (Decimal.Numeral.plain Decimal.messageStyle m e).pointed
  | '\x00', some count =>
    let count := max count 1
    (Decimal.Numeral.general num den count (count - 1) layout.alternate).pointed
  | 'e', _ | 'E', _ => .exponential num den places
  | 'g', _ | 'G', _ | 'n', _ =>
    let count := max places 1
    .general num den count count layout.alternate
  | _, _ => .fixed num den places

def percent (layout : Layout) : List Char :=
  if layout.kind = '%' then ['%'] else []

def capital (layout : Layout) (text : List Char) : List Char :=
  if layout.kind ∈ capitalKinds then text.map Char.toUpper else text

def maxPrecision : Nat := 2147483647

def float (layout : Layout) (x : Decimal.Binary64) : Except Failure (List Char) :=
  if layout.kind ∉ '\x00' :: 'n' :: floatKinds then layout.unknown "float"
  else if maxPrecision < layout.precision.getD 0 then bad "precision too big"
  else
    match if layout.kind = '%' then x.times 100 else x with
    | .finite negative m e =>
      let numeral := layout.numeral m e
      let negative := negative && !(layout.plainZero && numeral.isZero)
      let tail := layout.capital (numeral.tail Decimal.messageStyle layout.alternate)
      layout.number 3 (layout.signOf negative) numeral.whole (tail ++ layout.percent)
    | .infinite negative =>
      let tail := layout.capital "inf".toList
      layout.number 3 (layout.signOf negative) [] (tail ++ layout.percent)
    | .nan =>
      let tail := layout.capital "nan".toList
      layout.number 3 (layout.signOf false) [] (tail ++ layout.percent)

/-- (layout.int object n) lays out an integer; some kinds write it as a float. -/
def int (layout : Layout) (object : String) (n : Int) : Except Failure (List Char) :=
  if layout.kind ∈ intKinds then layout.whole n
  else if layout.kind ∈ floatKinds then
    match Decimal.Binary64.ofRatio (n < 0) n.natAbs 1 with
    | .infinite _ => .error .outOfRange
    | x => layout.float x
  else layout.unknown object

end Layout

end DeltaFeed
