import ApiCatalog.FilePath

/-!
# Trees of files

A directory holds files and directories under names, in the order in which they are listed, and
every file and directory says what may be done with it. There are no links.
-/

namespace ApiCatalog

/-- Why a path leads nowhere, or to something that does not serve. -/
inductive FileProblem where
  | notFound
  | isDirectory
  | notDirectory
  | exists
  | notAllowed
  | noSpace
  | readOnly
  /-- The device fails. -/
  | device
  | notText
deriving DecidableEq, Repr, Inhabited

/-- The system's words for the problem. -/
def FileProblem.message : FileProblem → String
  | .notFound => "No such file or directory (os error 2)"
  | .isDirectory => "Is a directory (os error 21)"
  | .notDirectory => "Not a directory (os error 20)"
  | .exists => "File exists (os error 17)"
  | .notAllowed => "Permission denied (os error 13)"
  | .noSpace => "No space left on device (os error 28)"
  | .readOnly => "Read-only file system (os error 30)"
  | .device => "Input/output error (os error 5)"
  | .notText => "stream did not contain valid UTF-8"

/-- What stands in the way of using a file or a directory. -/
structure Access where
  /-- Reading the bytes of a file, or listing a directory. -/
  read : Option FileProblem := none
  /-- Writing a file, or making and removing entries of a directory. -/
  write : Option FileProblem := none
  /-- Going on from a directory to what lies in it. -/
  enter : Option FileProblem := none
deriving DecidableEq, Repr, Inhabited

/-- A file with its bytes, or a directory with its entries. -/
inductive FileTree where
  | file (access : Access) (bytes : List UInt8)
  | directory (access : Access) (entries : List (RawPath × FileTree))
deriving Repr, Inhabited

namespace FileTree

/-- The entries of a directory, under their names. -/
abbrev Entries := List (RawPath × FileTree)

/-- A directory without entries. -/
def empty : FileTree := .directory {} []

/-- It is a directory. -/
def isDirectory : FileTree → Bool
  | .directory .. => true
  | .file .. => false

/-- The node under a name. -/
def lookup? (name : RawPath) (entries : Entries) : Option FileTree :=
  (entries.find? (·.1 == name)).map Prod.snd

/-- The node that names lead down to. -/
def follow : List RawPath → FileTree → Option FileTree
  | [], node => some node
  | name :: names, .directory _ entries => (lookup? name entries).bind (follow names)
  | _ :: _, .file .. => none

/-- The entries with `node` under `name`, in place of what was there. -/
def setEntry (name : RawPath) (node : FileTree) : Entries → Entries
  | [] => [(name, node)]
  | (n, old) :: rest =>
    if n = name then (name, node) :: rest else (n, old) :: setEntry name node rest

/-- The entries without the one under `name`. -/
def dropEntry (name : RawPath) (entries : Entries) : Entries := entries.filter (·.1 != name)

/-- The tree with other entries in the directory that names lead down to. -/
def changeAt (change : Entries → Entries) : List RawPath → FileTree → FileTree
  | [], .directory access entries => .directory access (change entries)
  | name :: names, .directory access entries =>
    match lookup? name entries with
    | some node => .directory access (setEntry name (changeAt change names node) entries)
    | none => .directory access entries
  | _, .file access bytes => .file access bytes

end FileTree
end ApiCatalog
