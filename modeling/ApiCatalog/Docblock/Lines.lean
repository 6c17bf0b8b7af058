import ApiCatalog.Text.Blank
import ApiCatalog.Text.Split

/-!
# The lines of a documentation comment

A documentation comment is read as a list of *cleaned lines*: the delimiters are gone, so is
the star in front of each line, and blank lines at both ends are dropped. A comment with one
line only is cut in front of each tag that starts inside that line.
-/

namespace ApiCatalog.Docblock

open Text

/-- The comment without `/**` and `*/` at its ends. -/
def withoutDelimiters (raw : List Char) : List Char :=
  let body := trim raw
  let body := (dropStart? ['/', '*', '*'] body).getD body
  (dropStop? ['*', '/'] body).getD body

/-- A line without its indentation, one star and one space after that star, and without blanks
at its end. -/
def cleanLine (line : List Char) : List Char :=
  trimEnd <|
    match trimStart line with
    | '*' :: ' ' :: rest => rest
    | '*' :: rest => rest
    | rest => rest

/-- Nothing but blanks. -/
def isBlankLine (line : List Char) : Bool := line.all isBlank

/-- The lines without blank ones at both ends. -/
def trimBlankLines (lines : List (List Char)) : List (List Char) :=
  ((lines.dropWhile isBlankLine).reverse.dropWhile isBlankLine).reverse

/-- The text starts with an `@` and an ASCII letter. -/
def startsTag : List Char → Bool
  | '@' :: c :: _ => c.isAlpha
  | _ => false

/-- The pieces of a line when it is cut in front of every tag that follows a blank;
`afterBlank` tells whether the character before the text is a blank. -/
def cutAtTags (afterBlank : Bool) : List Char → List (List Char)
  | [] => [[]]
  | c :: rest =>
    let tail := cutAtTags (isBlank c) rest
    let here := (c :: tail.headD []) :: tail.tail
    if afterBlank && startsTag (c :: rest) then [] :: here else here

/-- The lines of a comment that has only this one. -/
def inlineLines (line : List Char) : List (List Char) :=
  match cutAtTags false line with
  | [_] => [line]
  | pieces => (pieces.map trim).filter (!·.isEmpty)

/-- The cleaned lines of a documentation comment. -/
def cleanLines (raw : List Char) : List (List Char) :=
  match trimBlankLines ((lines (withoutDelimiters raw)).map cleanLine) with
  | [line] => inlineLines line
  | cleaned => cleaned

end ApiCatalog.Docblock
