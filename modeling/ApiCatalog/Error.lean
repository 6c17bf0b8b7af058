import ApiCatalog.FileTree
import ApiCatalog.Glob
import ApiCatalog.Php.SyntaxError

/-!
# Errors

All that can stop reading a release, storing a document or running a command, each cause with
what is known about it. `message` puts a cause into words.
-/

namespace ApiCatalog

/-- Why the catalogue refuses a statement. -/
inductive StoreProblem where
  | noRows
  /-- A row refers to a row that is not there. -/
  | missingReference
  /-- Two rows would agree in what may occur once. -/
  | duplicate (constraint : String)
  | cannotOpen (path : String)
  /-- A file that the engine keeps beside the database cannot be opened. -/
  | cannotOpenBeside
  /-- The address of a database names a host that it cannot name. -/
  | badHost (host : String)
  /-- A file has other contents. -/
  | notDatabase
deriving DecidableEq, Repr, Inhabited

/-- What stopped the work. -/
inductive Error where
  | file (problem : FileProblem)
  /-- A text is not the JSON of what it should hold. -/
  | json
  /-- A document that is being written does not find its way to the disk. -/
  | output (problem : FileProblem)
  | store (problem : StoreProblem)
  | walk (path : RawPath) (problem : FileProblem)
  | syntaxError (path : RawPath) (error : Php.SyntaxError)
  | unreadable (path : RawPath) (problem : FileProblem)
  | tooManyFailures (count : Nat)
  | notConfigured (release branch : String)
  | badPattern (pattern : String) (error : GlobError)
  | unknownRelease (software version : String)
  | noSoftware (slug : String)
  | noVersion (software version : String)
  /-- An element cannot be stored, as the row that would own it is not there. -/
  | noOwner (kind name owner : String) (id : Int)
  | noSlug (name : String)
  | nothingRegistered
  /-- There is nobody to ask for what was not said. -/
  | noTerminal
  /-- A directory for a result cannot be made. -/
  | system (problem : FileProblem)
deriving DecidableEq, Repr, Inhabited

/-- The problem in words. -/
def StoreProblem.message : StoreProblem → String
  | .noRows => "Query returned no rows"
  | .missingReference => "FOREIGN KEY constraint failed"
  | .duplicate constraint => "UNIQUE constraint failed: " ++ constraint
  | .cannotOpen path => "unable to open database file: " ++ path
  | .cannotOpenBeside => "unable to open database file"
  | .badHost host => "invalid uri authority: " ++ host
  | .notDatabase => "file is not a database"

/-- The error in words. -/
def Error.message : Error → String
  | .file problem => "IO error: " ++ problem.message
  | .json => "JSON error"
  | .output problem => "JSON error: " ++ problem.message
  | .store problem => "Database error: " ++ problem.message
  | .walk path problem =>
    "Directory walk error: IO error for operation on " ++ FilePath.display path ++ ": " ++
      problem.message
  | .syntaxError path e =>
    "Failed to parse " ++ FilePath.display path ++ " (line " ++ toString e.line ++ "): " ++ e.message
  | .unreadable path problem =>
    "Failed to parse " ++ FilePath.display path ++ ": unreadable: " ++ problem.message
  | .tooManyFailures count => "Aborting after " ++ toString count ++ " files failed to parse"
  | .notConfigured release branch =>
    "There is no configuration for version '" ++ release ++ "' (branch '" ++ branch ++ "')"
  | .badPattern pattern e => "Invalid exclude pattern '" ++ pattern ++ "': " ++ e.message
  | .unknownRelease software version => "Unknown " ++ software ++ " version '" ++ version ++ "'"
  | .noSoftware slug => "Software not found: " ++ slug
  | .noVersion software version =>
    "Cannot find entry for \"" ++ software ++ "\" at version \"" ++ version ++ "\""
  | .noOwner kind name owner id =>
    "Cannot associate " ++ kind ++ " '" ++ name ++ "' with " ++ owner ++ " #" ++ toString id ++
      ": owner is not persisted"
  | .noSlug name => "Cannot derive a slug from '" ++ name ++ "'"
  | .nothingRegistered => "No software registered yet, run add-software first"
  | .noTerminal => "IO error: not a terminal"
  | .system problem => problem.message

end ApiCatalog
