import DeltaFeed.Journal.Layout
import DeltaFeed.Journal.Subject

/-! Templates of messages. A pair of braces stands for an argument: the next one, or the one with
the number inside. A number may be followed by members and indices of the argument, an exclamation
mark and a conversion, and a colon and a layout, which may itself have fields. Braces that are
written twice stand for themselves.
-/

namespace DeltaFeed.Template

open Layout (bad)

/-- (layOut subject spec) is a subject in a layout. A timestamp has a pattern in place of one. -/
def layOut (subject : Subject) (spec : List Char) : Except Failure (List Char) :=
  if spec.isEmpty then .ok subject.plain
  else
    match subject with
    | .value (.text s) => do (← Layout.ofText "str" 's' false spec).text s.toList
    | .value (.int n) => do (← Layout.ofText "int" 'd' true spec).int "int" n
    | .value (.bool b) => do (← Layout.ofText "bool" 'd' true spec).int "bool" (if b then 1 else 0)
    | .value (.float x) => do (← Layout.ofText "float" '\x00' true spec).float x
    | .value (.moment t) => .ok (Time.Pattern.write t spec)
    | _ => .error .wrongType

structure Field where
  name : List Char
  conversion : Option Char := none
  spec : List Char := []
deriving DecidableEq, Repr

inductive Piece where
  | plain (c : Char)
  | field (field : Field)
  /-- What cannot be read, with all that follows it. -/
  | broken (reason : String)
deriving DecidableEq, Repr

inductive Mode where
  | outside
  /-- Inside the name of a field, as far as it was read, from the last character to the first. -/
  | name (read : List Char) (inIndex : Bool)
  | conversion (field : Field)
  | converted (field : Field)
  /-- Inside the layout of a field, as far as it was read, from the last character to the first. -/
  | spec (field : Field) (depth : Nat) (read : List Char)

def scan : Mode → List Char → List Piece
  | .outside, [] => []
  | .outside, '{' :: '{' :: rest => .plain '{' :: scan .outside rest
  | .outside, '}' :: '}' :: rest => .plain '}' :: scan .outside rest
  | .outside, '}' :: _ => [.broken r"Single '}' encountered in format string"]
  | .outside, ['{'] => [.broken r"Single '{' encountered in format string"]
  | .outside, c :: rest =>
    if c = '{' then scan (.name [] false) rest else .plain c :: scan .outside rest
  | .name _ _, [] => [.broken r"expected '}' before end of string"]
  | .name read true, c :: rest => scan (.name (c :: read) (c ≠ ']')) rest
  | .name read false, c :: rest =>
    let field : Field := { name := read.reverse }
    match c with
    | '}' => .field field :: scan .outside rest
    | ':' => scan (.spec field 0 []) rest
    | '!' => scan (.conversion field) rest
    | '{' => [.broken r"unexpected '{' in field name"]
    | c => scan (.name (c :: read) (c = '[')) rest
  | .conversion _, [] => [.broken "end of string while looking for conversion specifier"]
  | .conversion field, c :: rest => scan (.converted { field with conversion := some c }) rest
  | .converted _, [] => [.broken r"unmatched '{' in format spec"]
  | .converted field, c :: rest =>
    match c with
    | '}' => .field field :: scan .outside rest
    | ':' => scan (.spec field 0 []) rest
    | _ => [.broken "expected ':' after conversion specifier"]
  | .spec _ _ _, [] => [.broken r"unmatched '{' in format spec"]
  | .spec field depth read, c :: rest =>
    match c, depth with
    | '}', 0 => .field { field with spec := read.reverse } :: scan .outside rest
    | '}', depth + 1 => scan (.spec field depth (c :: read)) rest
    | '{', depth => scan (.spec field (depth + 1) (c :: read)) rest
    | c, depth => scan (.spec field depth (c :: read)) rest

def pieces (template : List Char) : List Piece :=
  scan .outside template

def converted (subject : Subject) (conversion : Option Char) : Except Failure Subject :=
  let text (cs : List Char) : Except Failure Subject := .ok (.value (.text (String.ofList cs)))
  match conversion with
  | none => .ok subject
  | some 's' => text subject.plain
  | some 'r' => text subject.shown
  | some 'a' =>
    let ascii (c : Char) : List Char := if c.toNat < 0x7f then [c] else Text.escapeCode c
    text (subject.shown.flatMap ascii)
  | some c =>
    if 0x20 < c.toNat && c.toNat < 0x7f then bad s!"Unknown conversion specifier {c}"
    else
      let code := String.ofList (Nat.toDigits 16 c.toNat)
      bad s!"Unknown conversion specifier \\x{code}"

def item (subject : Subject) (index : List Char) : Except Failure Subject := do
  if index.isEmpty then bad "Empty attribute in format string"
  let (number, rest) ← Layout.number? index
  match subject, if rest.isEmpty then number else none with
  | .value (.list items), some n =>
    (items[n]?.map fun v => .ok (.value v)).getD (.error .noSuchPosition)
  | .value (.text s), some n =>
    (s.toList[n]?.map fun c => .ok (.value (.text (String.ofList [c])))).getD
      (.error .noSuchPosition)
  | .value (.record _), some n => .error (.missingKey (Text.decimal n))
  | .value (.record fields), none =>
    let key := String.ofList index
    ((fields.lookup key).map fun v => .ok (.value v)).getD (.error (.missingKey (Text.quoted key)))
  | _, _ => .error .wrongType

/-- (isName c) holds of the characters that do not end the name of a member. -/
def isName (c : Char) : Bool :=
  c ≠ '.' && c ≠ '['

def member (subject : Subject) (name : List Char) : Except Failure Subject :=
  if name.isEmpty then bad "Empty attribute in format string"
  else ((subject.member? (String.ofList name)).map .ok).getD (.error .noSuchMember)

/-- (reached subject steps) follows the members and indices after the name of a field. -/
def reached (subject : Subject) : List Char → Except Failure Subject
  | [] => .ok subject
  | '[' :: rest => do
    let found ← item subject (rest.takeWhile (· ≠ ']'))
    reached found ((rest.dropWhile (· ≠ ']')).drop 1)
  | '.' :: rest => do
    let found ← member subject (rest.takeWhile isName)
    reached found (rest.dropWhile isName)
  | _ => bad "Only '.' or '[' may follow ']' in format field specifier"
termination_by steps => steps.length
decreasing_by
  · have := (List.dropWhile_sublist (· ≠ ']') (l := rest)).length_le
    simp only [List.length_drop, List.length_cons]
    omega
  · have := (List.dropWhile_sublist isName (l := rest)).length_le
    simp only [List.length_cons]
    omega

/-- How the fields of a template name their arguments, as far as it is known. -/
inductive Numbering where
  | open
  | automatic (next : Nat)
  | manual
deriving DecidableEq, Repr

def argument (args : List Value) (position : Nat) : Except Failure Value :=
  match args[position]? with
  | some value => .ok value
  | none => .error .noSuchPosition

/-- (select args numbering name) is the argument that a field names, where the name has no index. -/
def select (args : List Value) (numbering : Numbering) (name : List Char)
    : Except Failure (Value × Numbering) := do
  let (number, rest) ← Layout.number? name
  match name, if rest.isEmpty then number else none, numbering with
  | [], _, .open => return (← argument args 0, .automatic 1)
  | [], _, .automatic next => return (← argument args next, .automatic (next + 1))
  | [], _, .manual =>
    bad "cannot switch from manual field specification to automatic field numbering"
  | _, some _, .automatic _ =>
    bad "cannot switch from automatic field numbering to manual field specification"
  | _, some position, _ => return (← argument args position, .manual)
  | name, none, _ => .error (.missingKey (Text.quoted (String.ofList name)))

/-- A text with the arguments that it takes, and how fields name them after that. -/
abbrev Filling := Numbering → List Char → Except Failure (List Char × Numbering)

/-- (fillField expand args numbering field) is the text of a field, where expand fills in the fields
of its layout.
-/
def fillField (expand : Filling) (args : List Value) (numbering : Numbering) (field : Field)
    : Except Failure (List Char × Numbering) := do
  let (value, numbering) ← select args numbering (field.name.takeWhile isName)
  let subject ← reached (.value value) (field.name.dropWhile isName)
  let subject ← converted subject field.conversion
  let (spec, numbering) ←
    if field.spec.contains '{' then expand numbering field.spec
    else pure (field.spec, numbering)
  return (← layOut subject spec, numbering)

def fillPieces (expand : Filling) (args : List Value) (numbering : Numbering)
    : List Piece → Except Failure (List Char × Numbering)
  | [] => .ok ([], numbering)
  | .plain c :: rest => do
    let (text, numbering) ← fillPieces expand args numbering rest
    return (c :: text, numbering)
  | .field field :: rest => do
    let (written, numbering) ← fillField expand args numbering field
    let (text, numbering) ← fillPieces expand args numbering rest
    return (written ++ text, numbering)
  | .broken reason :: _ => bad reason

/-- (fillNested depth args) fills in fields inside each other up to a depth. -/
def fillNested (depth : Nat) (args : List Value) : Filling :=
  match depth with
  | 0 => fun _ _ => bad "Max string recursion exceeded"
  | depth + 1 => fun numbering template =>
    fillPieces (fillNested depth args) args numbering (pieces template)

def fill (template : String) (args : List Value) : Except Failure String := do
  let (text, _) ← fillNested 2 args .open template.toList
  return String.ofList text

end DeltaFeed.Template
