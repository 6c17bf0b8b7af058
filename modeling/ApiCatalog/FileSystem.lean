import ApiCatalog.FileTree

/-!
# File systems

A place in a tree of files is known by the names that lead to it from the root. An absolute path is
followed from the root, any other one from the directory in which work is done, piece by piece: an
empty piece or `.` stays, `..` goes back to the directory above, and a name goes down. Nothing can
be reached through a file, nor through a directory that may not be entered, and nothing lies above
the root.
-/

namespace ApiCatalog

open FilePath FileTree

namespace FilePath

/-- The pieces of a path. -/
def pieces (path : RawPath) : List RawPath := Text.splitOn slash path

/-- The pieces of a path without the empty ones at its end. -/
def trimmedPieces (path : RawPath) : List RawPath :=
  ((pieces path).reverse.dropWhile (·.isEmpty)).reverse

/-- A piece that names an entry of a directory. -/
def isEntryName (piece : RawPath) : Bool :=
  !piece.isEmpty && piece != [dot] && piece != [dot, dot]

/-- The path ends in a name, so it may be that of a file. -/
def endsInName (path : RawPath) : Bool := isEntryName (((pieces path).getLast?).getD [])

/-- The names of the place behind one more piece of a path. -/
def turn (names : List RawPath) (piece : RawPath) : List RawPath :=
  if piece = [] ∨ piece = [dot] then names
  else if piece = [dot, dot] then names.dropLast
  else names ++ [piece]

end FilePath

/-- What a disk takes of a file that is written. -/
structure Disk where
  /-- The number of bytes after which it takes no more, and why; none if it takes them all. -/
  limit : Option (Nat × FileProblem) := none
  /-- How many bytes at the end of a file reach the disk only when the file is closed, which is too
  late for a problem to be told. -/
  heldBack : Nat := 0
deriving DecidableEq, Repr, Inhabited

/-- What comes to lie on the disk of a file with these bytes. -/
def Disk.taken (disk : Disk) (bytes : List UInt8) : List UInt8 :=
  match disk.limit with
  | none => bytes
  | some (most, _) => bytes.take most

/-- The problem with the first `count` bytes of a file. -/
def Disk.problem? (disk : Disk) (count : Nat) : Option FileProblem :=
  match disk.limit with
  | none => none
  | some (most, problem) => if most < count then some problem else none

/-- A tree of files on a disk, and where work is done in it. -/
structure FileSystem where
  root : FileTree := .empty
  /-- The names of the directory from which paths start. -/
  here : List RawPath := []
  disk : Disk := {}
deriving Repr, Inhabited

namespace FileSystem

/-! ## Places -/

/-- The names of the place that a path starts from. -/
def start (fs : FileSystem) (path : RawPath) : List RawPath :=
  if isAbsolute path then [] else fs.here

/-- The names that a path spells, whether it can be followed or not. -/
def destination (fs : FileSystem) (path : RawPath) : List RawPath :=
  (pieces path).foldl turn (fs.start path)

/-- Goes on unless there is a problem. -/
def allow : Option FileProblem → Except FileProblem Unit
  | none => .ok ()
  | some problem => .error problem

/-- One piece of a path, followed from a place. -/
def step (fs : FileSystem) (names : List RawPath) (piece : RawPath) :
    Except FileProblem (List RawPath) :=
  match fs.root.follow names with
  | none => .error .notFound
  | some (.file ..) => .error .notDirectory
  | some (.directory access _) => do
    if piece ≠ [] then allow access.enter
    if (fs.root.follow (turn names piece)).isSome then return turn names piece
    else throw .notFound

/-- The place that pieces lead to. -/
def walk (fs : FileSystem) (names : List RawPath) (pieces : List RawPath) :
    Except FileProblem (List RawPath) := pieces.foldlM fs.step names

/-- The place that a path leads to; an empty path leads nowhere. -/
def locate (fs : FileSystem) (path : RawPath) : Except FileProblem (List RawPath) :=
  if path = [] then .error .notFound else fs.walk (fs.start path) (pieces path)

/-- The file or directory that a path leads to. -/
def node (fs : FileSystem) (path : RawPath) : Except FileProblem FileTree := do
  let names ← fs.locate path
  (fs.root.follow names).elim (.error .notFound) .ok

/-- The bytes of the file at a path. -/
def read (fs : FileSystem) (path : RawPath) : Except FileProblem (List UInt8) := do
  match ← fs.node path with
  | .file access bytes =>
    allow access.read
    return bytes
  | .directory access _ =>
    allow access.read
    throw .isDirectory

/-- A directory lies at the path. -/
def hasDirectory (fs : FileSystem) (path : RawPath) : Bool :=
  match fs.node path with
  | .ok node => node.isDirectory
  | .error _ => false

/-- A file lies at the path. -/
def hasFile (fs : FileSystem) (path : RawPath) : Bool :=
  match fs.node path with
  | .ok node => !node.isDirectory
  | .error _ => false

/-! ## Changes -/

/-- A name in a directory. -/
structure Slot where
  /-- The names of the directory. -/
  place : List RawPath
  access : Access
  entries : Entries
  name : RawPath

/-- What lies under the name. -/
def Slot.node? (slot : Slot) : Option FileTree := lookup? slot.name slot.entries

/-- The name in a directory that a path stands for, apart from separators at its end. -/
def slot (fs : FileSystem) (path : RawPath) : Except FileProblem Slot := do
  if path = [] then throw .notFound
  let place ← fs.walk (fs.start path) (trimmedPieces path).dropLast
  match fs.root.follow place with
  | none => throw .notFound
  | some (.file ..) => throw .notDirectory
  | some (.directory access entries) =>
    allow access.enter
    return { place, access, entries, name := (trimmedPieces path).getLast?.getD [] }

/-- The file system with other entries in the directory of a slot. -/
def change (fs : FileSystem) (slot : Slot) (f : Entries → Entries) : FileSystem :=
  { fs with root := changeAt f slot.place fs.root }

/-- The file system with a file of these bytes at the path. A file that is there is emptied first; if
none is there, its directory must be. -/
def write (fs : FileSystem) (path : RawPath) (bytes : List UInt8) :
    Except FileProblem FileSystem := do
  let slot ← fs.slot path
  if !endsInName path then throw .isDirectory
  match slot.node? with
  | some (.directory ..) => throw .isDirectory
  | some (.file access _) =>
    allow access.write
    return fs.change slot (setEntry slot.name (.file access bytes))
  | none =>
    allow slot.access.write
    return fs.change slot (setEntry slot.name (.file {} bytes))

/-- The file system without the file at the path, if one is there that may be removed. -/
def remove (fs : FileSystem) (path : RawPath) : FileSystem :=
  match fs.slot path with
  | .error _ => fs
  | .ok slot =>
    match slot.node?, slot.access.write with
    | some (.file ..), none =>
      if endsInName path then fs.change slot (dropEntry slot.name) else fs
    | _, _ => fs

/-- The file system with a directory at the path, where there must be nothing yet. -/
def makeDirectory (fs : FileSystem) (path : RawPath) : Except FileProblem FileSystem := do
  let slot ← fs.slot path
  if !isEntryName slot.name || slot.node?.isSome then throw .exists
  allow slot.access.write
  return fs.change slot (setEntry slot.name .empty)

/-- A directory lies at the path, made if need be, or there is a problem. -/
def ensureDirectory (fs : FileSystem) (path : RawPath) : Except FileProblem Unit × FileSystem :=
  match fs.makeDirectory path with
  | .ok fs => (.ok (), fs)
  | .error problem => (if fs.hasDirectory path then .ok () else .error problem, fs)

/-- Makes the directory whose path has these components, the last one first; if that on the way to
it is not there either, it is made before. What is made before a problem stays. -/
def makeFrom : List RawPath → FileSystem → Except FileProblem Unit × FileSystem
  | [], fs => (.ok (), fs)
  | last :: front, fs =>
    let path := ofComponents (last :: front).reverse
    match fs.ensureDirectory path with
    | (.error .notFound, fs) =>
      match makeFrom front fs with
      | (.ok (), fs) => fs.ensureDirectory path
      | failed => failed
    | done => done

/-- Makes the directory at the path and every one on the way. -/
def makeDirectories (fs : FileSystem) (path : RawPath) : Except FileProblem Unit × FileSystem :=
  makeFrom (components path).reverse fs

/-- The file system with files and directories at the paths given; a path that cannot be reached is
left out. -/
def addAll (fs : FileSystem) (contents : List (RawPath × FileTree)) : FileSystem :=
  contents.foldl
    (fun fs (path, content) =>
      match content with
      | .directory .. => (fs.makeDirectories path).2
      | .file _ bytes =>
        let fs := (fs.makeDirectories (parent path)).2
        (fs.write path bytes).toOption.getD fs)
    fs

/-- The file system of the files and directories at the paths given. -/
def ofList (contents : List (String × FileTree)) : FileSystem :=
  ({} : FileSystem).addAll (contents.map fun c => (Text.encode c.1, c.2))

end FileSystem
end ApiCatalog
