import ApiCatalog.Text.Blank
import ApiCatalog.Text.Split
import ApiCatalog.Text.Utf8

/-!
# Paths of files

A path is a list of bytes, which need not be those of a text, with `/` between its components.
Doubled separators, a separator at the end and `.` components say nothing, save that a leading `/`
or `.` counts as a component of its own. A *key* names a file in a document: it is a text, relative,
with `/` between names, and with `.` and `..` worked out.
-/

namespace ApiCatalog

/-- A path, or a name in one. -/
abbrev RawPath := List UInt8

namespace FilePath

open Text

/-- The byte between the components of a path. -/
def slash : UInt8 := 0x2F

/-- The byte in front of an extension. -/
def dot : UInt8 := 0x2E

/-- The text that is shown for a path: what is no text in it is replaced. -/
def display (path : RawPath) : String := .ofList (decodeLossy path)

/-- The components among the pieces of a path, the first of them apart. -/
def named (pieces : List RawPath) : List RawPath := pieces.filter fun p => !p.isEmpty && p != [dot]

/-- The components of a path. -/
def components (path : RawPath) : List RawPath :=
  match splitOn slash path with
  | [] => []
  | first :: pieces =>
    if path.isEmpty then []
    else if first.isEmpty then [slash] :: named pieces
    else first :: named pieces

/-- The components of `path` below `root`; none if `path` does not lie below `root`. -/
def below? (root path : RawPath) : Option (List RawPath) :=
  let start := components root
  let whole := components path
  if start.isPrefixOf whole then some (whole.drop start.length) else none

/-- One more component of a path that is being normalised. -/
def step (done : List (List Char)) (piece : List Char) : List (List Char) :=
  if piece.isEmpty || piece == ['.'] then done
  else if piece == ['.', '.'] then done.dropLast
  else done ++ [piece]

/-- Backslashes read as separators. -/
def forwardSlashes (path : List Char) : List Char := path.map fun c => if c = '\\' then '/' else c

/-- The components of the normal form of a path. -/
def normalComponents (path : List Char) : List (List Char) :=
  (splitOn '/' (forwardSlashes path)).foldl step []

/-- The normal form of a path: relative, with names and single separators only. -/
def normalize (path : String) : String :=
  .ofList (joinWith '/' (normalComponents path.toList))

/-- The key of the file at `path` in a document about `root`; a path that does not lie below
`root` counts whole. -/
def relativeKey (path root : RawPath) : String :=
  match below? root path with
  | some pieces => normalize (display (joinWith slash pieces))
  | none => normalize (display path)

/-- The path is absolute. -/
def isAbsolute (path : RawPath) : Bool := path.head? == some slash

/-- `rest` under `base`; an absolute `rest` stands alone. -/
def join (base rest : RawPath) : RawPath :=
  if isAbsolute rest || base.isEmpty then rest
  else if base.getLast? = some slash then base ++ rest
  else base ++ slash :: rest

/-- The path that is made of components. -/
def ofComponents (components : List RawPath) : RawPath := components.foldl join []

/-- The path of the directory that a path lies in, as far as the path says. -/
def parent (path : RawPath) : RawPath := ofComponents (components path).dropLast

/-- The part of a name behind its last dot, unless that dot is its first byte. -/
def extensionOf? (name : RawPath) : Option RawPath :=
  let rest := lastPiece dot name
  if rest.length + 1 < name.length then some rest else none

/-- The extension of the file that a path names. -/
def extension? (path : RawPath) : Option RawPath := do
  let name ← (components path).getLast?
  if name = [dot, dot] then none else extensionOf? name

end FilePath
end ApiCatalog
