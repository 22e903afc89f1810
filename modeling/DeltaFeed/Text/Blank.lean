/-! Blank characters. White space is the Unicode property; a blank is white space or one of
the four information separators, and blanks are what is trimmed from a text.
-/

namespace DeltaFeed.Text

/-- (isWhite c) holds of the characters with the Unicode property `White_Space`. -/
def isWhite (c : Char) : Bool :=
  let n := c.toNat
  (9 ≤ n && n ≤ 13) || n == 0x20 || n == 0x85 || n == 0xa0 || n == 0x1680
    || (0x2000 ≤ n && n ≤ 0x200a) || n == 0x2028 || n == 0x2029 || n == 0x202f
    || n == 0x205f || n == 0x3000

/-- (isBlank c) holds of white space and of the information separators. -/
def isBlank (c : Char) : Bool :=
  isWhite c || (0x1c ≤ c.toNat && c.toNat ≤ 0x1f)

/-- (trimBy p text) drops the characters in p from both ends of the text. -/
def trimBy (p : Char → Bool) (text : List Char) : List Char :=
  ((text.dropWhile p).reverse.dropWhile p).reverse

def trim (text : List Char) : List Char :=
  trimBy isBlank text

/-- A text without the characters in p at either end is its own trimmed form. -/
theorem trimBy_eq_self {p : Char → Bool} {text : List Char}
    (first : ∀ c, text.head? = some c → p c = false)
    (last : ∀ c, text.getLast? = some c → p c = false)
    : trimBy p text = text := by
  have drop : ∀ cs : List Char, (∀ c, cs.head? = some c → p c = false)
      → cs.dropWhile p = cs := by
    intro cs h
    cases cs with
    | nil => rfl
    | cons c rest => simp [h c rfl]
  unfold trimBy
  rw [drop text first, drop text.reverse (by simpa using last), List.reverse_reverse]

end DeltaFeed.Text
