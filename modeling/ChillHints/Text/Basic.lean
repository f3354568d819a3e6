/-!
# Text as a list of characters

Units and settings are read character by character, so the text functions here work on lists. A blank is a character
of the Unicode property `White_Space`; `trim` removes blanks at both ends and `words` cuts at them. `pieces` cuts at
every character of a class, `splitOnce` at the first occurrence of a separator.
-/

namespace ChillHints

/-- A text, one character after the other. -/
abbrev Text := List Char

/-- The code points of `White_Space`. -/
def isBlank (c : Char) : Bool :=
  let n := c.toNat
  (0x09 ≤ n && n ≤ 0x0d) || n == 0x20 || n == 0x85 || n == 0xa0 || n == 0x1680 || (0x2000 ≤ n && n ≤ 0x200a)
    || n == 0x2028 || n == 0x2029 || n == 0x202f || n == 0x205f || n == 0x3000

namespace Text

/-- Removes the blanks at the end. -/
def trimRight (s : Text) : Text := (s.reverse.dropWhile isBlank).reverse

/-- Removes the blanks at both ends. -/
def trim (s : Text) : Text := trimRight (s.dropWhile isBlank)

/-- The pieces between the characters of class `p`, one more than there are such characters. -/
def pieces (p : Char → Bool) : Text → List Text
  | [] => [[]]
  | c :: s => if p c then [] :: pieces p s else (pieces p s).modifyHead (c :: ·)

/-- The maximal runs without a blank. -/
def words (s : Text) : List Text := (pieces isBlank s).filter fun w => !w.isEmpty

/-- The trimmed lines that are not empty. A line ends at a line feed. -/
def lines (s : Text) : List Text := ((pieces (· == '\n') s).map trim).filter fun l => !l.isEmpty

/-- What stands before and after the first `sep`. -/
def splitOnce (sep : Text) : Text → Option (Text × Text)
  | [] => none
  | c :: s =>
    match sep.isPrefixOf? (c :: s) with
    | some rest => some ([], rest)
    | none => (splitOnce sep s).map fun (before, after) => (c :: before, after)

/-- The items with `sep` between two neighbours. -/
def join (sep : Text) : List Text → Text
  | [] => []
  | [t] => t
  | t :: ts => t ++ sep ++ join sep ts

end Text

end ChillHints
