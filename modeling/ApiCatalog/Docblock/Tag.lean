import ApiCatalog.Docblock.Basic
import ApiCatalog.Docblock.Lines
import ApiCatalog.Text.Word

/-!
# Reading one tag

A *tag block* is the line that starts with the tag and the lines that continue it. Its name is
the longest run of name characters behind the `@`; what follows is the *content*, and the name
decides which fields are read from the front of the content. A field that cannot be recognised
stays absent and its text is part of the description.
-/

namespace ApiCatalog.Tag

open Text

/-- A character that may stand in a tag's name behind the first letter. -/
def isNameChar (c : Char) : Bool := isWordChar c || c == '\\' || c == ':' || c == '-'

/-- The type names of a list written with `|`. -/
def splitTypes (types : List Char) : List (List Char) :=
  ((splitOn '|' types).map trim).filter (!·.isEmpty)

/-- The text without the triple dots at its start. -/
def dropEllipses : List Char → List Char
  | '.' :: '.' :: '.' :: rest => dropEllipses rest
  | cs => cs

/-- A variable token without the marks of a reference and of a variable length argument. -/
def bareVariable (token : List Char) : List Char := dropEllipses (dropLeading '&' token)

/-- The token names a variable. -/
def isVariable (token : List Char) : Bool := (bareVariable token).head? == some '$'

/-- The name of the variable that the token names. -/
def variableName (token : List Char) : List Char := dropLeading '$' (bareVariable token)

/-- What the fields of a tag are read as. -/
inductive Shape where
  /-- Types and a description. -/
  | value
  /-- Types, a variable and a description. -/
  | parameter
  /-- An address and a description. -/
  | link
  /-- The name of an element and a description. -/
  | reference
  /-- A version number, if there is one, and a description. -/
  | version
  /-- A description only. -/
  | text
deriving DecidableEq, Repr

/-- The shape that belongs to a tag's name. -/
def shapeOf (name : String) : Shape :=
  if name ∈ ["return", "throws"] then .value
  else if name ∈ ["param", "var", "property", "property-read", "property-write"] then .parameter
  else if name = "link" then .link
  else if name ∈ ["see", "uses", "used-by"] then .reference
  else if name ∈ ["version", "since", "deprecated"] then .version
  else .text

/-- The list as strings. -/
def strings (parts : List (List Char)) : List String := parts.map String.ofList

/-- A parameter tag: the variable stands first, or behind the types, or nowhere. -/
def parameter (name : String) (content : List Char) : Tag :=
  let (first, afterFirst) := nextWord content
  if isVariable first then
    { name, description := .ofList afterFirst, types := some [],
      varName := some (.ofList (variableName first)) }
  else
    let (second, afterSecond) := nextWord afterFirst
    let types := some (strings (splitTypes first))
    if isVariable second then
      { name, description := .ofList afterSecond, types,
        varName := some (.ofList (variableName second)) }
    else { name, description := .ofList afterFirst, types }

/-- The tag with this name and content. -/
def ofContent (name : String) (content : List Char) : Tag :=
  let plain : Tag := { name, description := .ofList content }
  let (first, afterFirst) := nextWord content
  match shapeOf name with
  | .value =>
    { name, description := .ofList afterFirst, types := some (strings (splitTypes first)) }
  | .parameter => parameter name content
  | .link =>
    if first.isEmpty then plain
    else { name, description := .ofList afterFirst, link := some (.ofList first) }
  | .reference =>
    if first.isEmpty then plain
    else { name, description := .ofList afterFirst, refers := some (.ofList first) }
  | .version =>
    match content with
    | c :: _ =>
      if isDecimalDigit c then
        { name, description := .ofList afterFirst, version := some (.ofList first) }
      else plain
    | [] => plain
  | .text => plain

/-- The tag that a block holds; none if the name runs into a character that is neither a blank
nor part of a name. -/
def ofBlock? (block : List Char) : Option Tag :=
  match trim block with
  | '@' :: c :: rest =>
    if c.isAlpha then
      let name := String.ofList (c :: rest.takeWhile isNameChar)
      match rest.dropWhile isNameChar with
      | [] => some (ofContent name [])
      | b :: after => if isBlank b then some (ofContent name (trim after)) else none
    else none
  | _ => none

end ApiCatalog.Tag
