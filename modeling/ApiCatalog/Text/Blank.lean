import ApiCatalog.Text.CodePoint

/-!
# Blanks and trimming

A *blank* is a character with the White_Space property, the no-break space and the line and
paragraph separators included. Trimming takes blanks off the ends of a text.
-/

namespace ApiCatalog.Text

/-- Ranges of the property White_Space. -/
def blankRanges : List (Nat × Nat) := [
  (0x09, 0x0D), (0x20, 0x20), (0x85, 0x85), (0xA0, 0xA0), (0x1680, 0x1680),
  (0x2000, 0x200A), (0x2028, 0x2029), (0x202F, 0x202F), (0x205F, 0x205F), (0x3000, 0x3000)]

/-- White space of any kind. -/
def isBlank (c : Char) : Bool := inRanges blankRanges c

/-- The text without the characters at its end that satisfy `p`. -/
def dropEndWhile (p : Char → Bool) (cs : List Char) : List Char :=
  (cs.reverse.dropWhile p).reverse

/-- The text without its leading blanks. -/
def trimStart (cs : List Char) : List Char := cs.dropWhile isBlank

/-- The text without its trailing blanks. -/
def trimEnd (cs : List Char) : List Char := dropEndWhile isBlank cs

/-- The text without the blanks at both ends. -/
def trim (cs : List Char) : List Char := trimEnd (trimStart cs)

/-- The text without the occurrences of `c` at its start. -/
def dropLeading (c : Char) (cs : List Char) : List Char := cs.dropWhile (· == c)

/-- The text without the occurrences of `c` at both ends. -/
def dropAround (c : Char) (cs : List Char) : List Char := dropEndWhile (· == c) (dropLeading c cs)

/-- The first word of the text and, trimmed, what follows it. -/
def nextWord (cs : List Char) : List Char × List Char :=
  let cs := trimStart cs
  (cs.takeWhile (!isBlank ·), trim (cs.dropWhile (!isBlank ·)))

end ApiCatalog.Text
