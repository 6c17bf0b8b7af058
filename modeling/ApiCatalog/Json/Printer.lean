import ApiCatalog.Json.Value

/-!
# Writing JSON

Two layouts of one value. `compact` puts nothing between tokens; `pretty` puts every item and
field on a line of its own, indented by two blanks per level, and writes an empty array or object
as its two brackets.
-/

namespace ApiCatalog.Json

/-- A hexadecimal digit in lower case. -/
def hexChar (n : Nat) : Char := Nat.digitChar n

/-- A character inside a string. -/
def escapeChar (c : Char) : List Char :=
  if c == '"' then ['\\', '"']
  else if c == '\\' then ['\\', '\\']
  else if c == '\n' then ['\\', 'n']
  else if c == '\r' then ['\\', 'r']
  else if c == '\t' then ['\\', 't']
  else if c == '\x08' then ['\\', 'b']
  else if c == '\x0c' then ['\\', 'f']
  else if c.toNat < 0x20 then
    ['\\', 'u', '0', '0', hexChar (c.toNat / 16), hexChar (c.toNat % 16)]
  else [c]

/-- A text between quotes. -/
def quoted (s : String) : List Char := '"' :: s.toList.flatMap escapeChar ++ ['"']

/-- A string that denotes no text: half of a surrogate pair. -/
def brokenQuoted : List Char := ['"', '\\', 'u', 'd', '8', '0', '0', '"']

/-- The key of a field. -/
def quotedKey (key : Option String) : List Char := key.elim brokenQuoted quoted

/-- A number as it is spelled. -/
def spelled (n : Numeral) : List Char :=
  (if n.negative then ['-'] else []) ++ n.whole ++
    (if n.fraction.isEmpty then [] else '.' :: n.fraction) ++
    match n.exponent with
    | none => []
    | some (negative, digits) => 'e' :: (if negative then ['-'] else []) ++ digits

/-- A value that is neither an array nor an object. -/
def scalar : Json → List Char
  | .null => ['n', 'u', 'l', 'l']
  | .bool true => ['t', 'r', 'u', 'e']
  | .bool false => ['f', 'a', 'l', 's', 'e']
  | .number n => spelled n
  | .text s => quoted s
  | _ => brokenQuoted

mutual

/-- The value without blanks. -/
def compact : Json → List Char
  | .array items => '[' :: compactItems items
  | .object fields => '\x7b' :: compactFields fields
  | value => scalar value

def compactItems : List Json → List Char
  | [] => [']']
  | [item] => compact item ++ [']']
  | item :: items => compact item ++ ',' :: compactItems items

def compactFields : List (Option String × Json) → List Char
  | [] => ['\x7d']
  | [(key, value)] => quotedKey key ++ ':' :: compact value ++ ['\x7d']
  | (key, value) :: fields => quotedKey key ++ ':' :: compact value ++ ',' :: compactFields fields

end

/-- A line break and the indentation of a level. -/
def newLine (level : Nat) : List Char := '\n' :: List.replicate (2 * level) ' '

mutual

/-- The value over several lines, its own first line at `level`. -/
def prettyAt (level : Nat) : Json → List Char
  | .array [] => ['[', ']']
  | .array items => '[' :: newLine (level + 1) ++ prettyItems level items
  | .object [] => ['\x7b', '\x7d']
  | .object fields => '\x7b' :: newLine (level + 1) ++ prettyFields level fields
  | value => scalar value

def prettyItems (level : Nat) : List Json → List Char
  | [] => []
  | [item] => prettyAt (level + 1) item ++ newLine level ++ [']']
  | item :: items =>
    prettyAt (level + 1) item ++ ',' :: newLine (level + 1) ++ prettyItems level items

def prettyFields (level : Nat) : List (Option String × Json) → List Char
  | [] => []
  | [(key, value)] =>
    quotedKey key ++ ':' :: ' ' :: prettyAt (level + 1) value ++ newLine level ++ ['\x7d']
  | (key, value) :: fields =>
    quotedKey key ++ ':' :: ' ' :: prettyAt (level + 1) value ++
      ',' :: newLine (level + 1) ++ prettyFields level fields

end

/-- The value over several lines. -/
def pretty (value : Json) : List Char := prettyAt 0 value

end ApiCatalog.Json
