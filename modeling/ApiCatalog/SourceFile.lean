import ApiCatalog.Classmap
import ApiCatalog.FileSelection
import ApiCatalog.Php.Entries
import ApiCatalog.Text.Utf8

/-!
# Source files

A source file becomes the entry of its declarations, and a directory the entries of all files
that are wanted of it under their keys. Bytes that are no text do not stop a file from being
read. One file that fails stops its directory.
-/

namespace ApiCatalog

/-- The declarations of a source text that was found at `path`. -/
def parseSource (path : RawPath) (source : List Char) : Except Error FileEntry :=
  match Php.reflect source with
  | .ok file => .ok file.entry
  | .error e => .error (.syntaxError path e)

/-- The declarations of the file at `path`. -/
def parseFile (files : FileSystem) (path : RawPath) : Except Error FileEntry :=
  match files.read path with
  | .error problem => .error (.unreadable path problem)
  | .ok bytes => parseSource path (Text.decodeLossy bytes)

/-- The aliases that the file at `path` registers. -/
def parseClassmap (files : FileSystem) (path : RawPath) : Except Error (List AliasEntry) :=
  match files.read path with
  | .error problem => .error (.file problem)
  | .ok bytes => .ok (Classmap.scan (Text.decodeLossy bytes))

/-- The entry of the file at `path` under its key in a document about `top`. -/
def parseKeyed (files : FileSystem) (top path : RawPath) : Except Error (String × FileEntry) :=
  return (FilePath.relativeKey path top, ← parseFile files path)

/-- The entries of all wanted files at and below `root`, under their keys in a document about
`top`. -/
def parseDirectory (selection : FileSelection) (files : FileSystem) (root top : RawPath) :
    Except Error (Dictionary FileEntry) := do
  let paths ← selection.list files root
  return .ofList (← paths.mapM (parseKeyed files top))

end ApiCatalog
