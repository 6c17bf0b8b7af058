/-!
# Cutting text into pieces

`splitOn` cuts a text at every occurrence of one character, so the pieces joined by it give the
text back; `lines` cuts it at its line ends. What is cut may be characters or bytes.
-/

namespace ApiCatalog.Text

variable {α : Type}

/-- The pieces of the text between the occurrences of `sep`; there is always at least one. -/
def splitOn [DecidableEq α] (sep : α) : List α → List (List α)
  | [] => [[]]
  | c :: rest =>
    if c = sep then [] :: splitOn sep rest
    else
      match splitOn sep rest with
      | [] => [[c]]
      | piece :: pieces => (c :: piece) :: pieces

/-- The pieces in order with `sep` between them. -/
def joinWith (sep : α) : List (List α) → List α
  | [] => []
  | [piece] => piece
  | piece :: pieces => piece ++ sep :: joinWith sep pieces

/-- The text without one carriage return at its end. -/
def dropReturn (line : List Char) : List Char :=
  if line.getLast? = some '\r' then line.dropLast else line

/-- Lines from the pieces between line feeds: a piece that a line feed ended may also end in a
carriage return, and an empty last piece is no line. -/
def linesOfPieces : List (List Char) → List (List Char)
  | [] => []
  | [last] => if last.isEmpty then [] else [last]
  | piece :: pieces => dropReturn piece :: linesOfPieces pieces

/-- The lines of the text, without their line ends. -/
def lines (cs : List Char) : List (List Char) := linesOfPieces (splitOn '\n' cs)

/-- The text after the last occurrence of `sep`, or all of it. -/
def lastPiece [DecidableEq α] (sep : α) (cs : List α) : List α :=
  ((splitOn sep cs).getLast?).getD []

/-- The text in front of the first occurrence of `sep` and behind it, if it occurs. -/
def splitFirst? (sep : Char) (cs : List Char) : Option (List Char × List Char) :=
  match cs.dropWhile (· != sep) with
  | [] => none
  | _ :: rest => some (cs.takeWhile (· != sep), rest)

/-- `whole` without `start` in front, if it starts so. -/
def dropStart? (start whole : List Char) : Option (List Char) :=
  if start.isPrefixOf whole then some (whole.drop start.length) else none

/-- `whole` without `stop` at its end, if it ends so. -/
def dropStop? (stop whole : List Char) : Option (List Char) :=
  if stop.isSuffixOf whole then some (whole.take (whole.length - stop.length)) else none

/-- `part` stands somewhere in the text. -/
def occursIn (part : List Char) : List Char → Bool
  | [] => part.isEmpty
  | c :: rest => part.isPrefixOf (c :: rest) || occursIn part rest

end ApiCatalog.Text
