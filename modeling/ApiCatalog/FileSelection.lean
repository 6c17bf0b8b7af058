import ApiCatalog.Error
import ApiCatalog.FileSystem

/-!
# Which files of a directory are read

A directory is walked to its depths. Hidden entries and the directories in which version control
keeps its data are passed over, the root of the walk excepted; any other directory that cannot be
listed ends the walk. Of the files that are found those count that have the right extension and
whose key no exclusion covers. They are put in the order of their paths' components.
-/

namespace ApiCatalog

open FilePath FileTree

/-- Which files are wanted. -/
structure FileSelection where
  /-- The extension, without a dot in front. -/
  extension : String
  exclusions : List Glob
deriving DecidableEq, Repr, Inhabited

namespace FileSelection

/-- The directories in which version control keeps its data. -/
def versionControlNames : List String :=
  [".git", ".svn", "_svn", "CVS", "_darcs", ".arch-params", ".monotone", ".bzr", ".hg"]

/-- The entry of a directory is passed over. -/
def isIgnored (name : RawPath) (node : FileTree) : Bool :=
  (display name).startsWith "." ||
    (node.isDirectory && versionControlNames.contains (display name))

/-- The exclusion that a text writes. -/
def readExclusion (pattern : String) : Except Error Glob :=
  (Glob.read pattern).mapError (Error.badPattern pattern)

/-- The selection of an extension, dots in front of it apart, and texts of exclusions. -/
def ofTexts (extension : String) (exclusions : List String) : Except Error FileSelection :=
  return {
    extension := .ofList (Text.dropLeading '.' extension.toList)
    exclusions := ← exclusions.mapM readExclusion }

mutual

/-- The paths of all files at and below a node that lies at `path`, as they are listed. -/
def filesAt (path : RawPath) : FileTree → Except Error (List RawPath)
  | .file .. => .ok [path]
  | .directory access entries =>
    match access.read with
    | some problem => .error (.walk path problem)
    | none => filesBelow path access.enter entries

/-- The paths of all files at and below the entries of a directory that lies at `path`. Its own
directories can be opened unless something bars the way into it. -/
def filesBelow (path : RawPath) (bar : Option FileProblem) : Entries → Except Error (List RawPath)
  | [] => .ok []
  | (name, node) :: rest =>
    if isIgnored name node then filesBelow path bar rest
    else do
      let found ←
        match node.isDirectory, bar with
        | true, some problem => .error (.walk (join path name) problem)
        | _, _ => filesAt (join path name) node
      return found ++ (← filesBelow path bar rest)

end

/-- The file at `path`, found below `root`, is wanted. -/
def wants (s : FileSelection) (root path : RawPath) : Bool :=
  (extension? path).map display == some s.extension &&
    !s.exclusions.any fun g => g.covers (relativeKey path root).toList

/-- Sorted paths with one more, in front of the first that does not come before it. -/
def insertInOrder (path : RawPath) : List RawPath → List RawPath
  | [] => [path]
  | first :: rest =>
    if components path ≤ components first then path :: first :: rest
    else first :: insertInOrder path rest

/-- The paths in the order of their components; among equals the order stays. -/
def sort (paths : List RawPath) : List RawPath := paths.foldr insertInOrder []

/-- The paths of the wanted files at and below `root`. -/
def list (s : FileSelection) (files : FileSystem) (root : RawPath) : Except Error (List RawPath) :=
  match files.node root with
  | .error problem => .error (.walk root problem)
  | .ok node => do
    let found ← filesAt root node
    return sort (found.filter (s.wants root))

end FileSelection
end ApiCatalog
