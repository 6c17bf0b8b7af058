import ApiCatalog.Config.Basic
import ApiCatalog.Document.Decode
import ApiCatalog.Document.Encode
import ApiCatalog.Release
import ApiCatalog.Store.Change
import ApiCatalog.Store.Migration
import ApiCatalog.Store.Place

/-!
# Sessions

Commands work on files and on the database of the configuration, and print lines. What a command did
before it failed stays done, save for changes of the store that are atomic.

The database is a file without bytes here, so a file with bytes in it is none. While the engine works
on it, it keeps a journal beside it, and an index of the journal; it opens files of these names,
whatever they hold, and removes them when it is done.
-/

namespace ApiCatalog

/-- What commands work on. -/
structure Workspace where
  files : FileSystem := {}
  /-- The database of the configuration, once it has been opened. -/
  database : Option Database := none
  /-- The time, as it is printed. -/
  now : String := ""
deriving Repr, Inhabited

/-- A workspace and the lines that have been printed. -/
structure SessionState where
  workspace : Workspace
  printed : List String := []

/-- Work on a workspace that prints and may fail. -/
abbrev Session := ExceptT Error (StateM SessionState)

namespace FileSystem

/-- A path in full: from the root, by names only. -/
def fullPath (fs : FileSystem) (path : RawPath) : RawPath :=
  FilePath.slash :: Text.joinWith FilePath.slash (fs.destination path)

/-- What is in the way of a database, now that its file has been opened: the journal that an earlier
engine left there, where it may have to be played back. -/
def dropJournal (fs : FileSystem) (path : RawPath) (isNew : Bool) : FileSystem :=
  let journal := path ++ Text.encode "-journal"
  match fs.read journal with
  | .error _ => fs
  | .ok bytes => if isNew || bytes.head?.any (· != 0) then fs.remove journal else fs

/-- The files when the engine has worked on the database at a path, all of whose names are known:
what lay under the names of its journal and the index of that is overwritten, and removed in the
end. -/
def settle (fs : FileSystem) (path : RawPath) (isNew : Bool) : Except FileProblem FileSystem := do
  let log := path ++ Text.encode "-wal"
  let index := path ++ Text.encode "-shm"
  let fs ← (fs.dropJournal path isNew).write log []
  let fs ← fs.write index []
  return (fs.remove log).remove index

/-- Works on a database whose file has been opened. -/
def attach (fs : FileSystem) (path : RawPath) (isNew : Bool) :
    Except StoreProblem Unit × FileSystem :=
  match fs.settle path isNew with
  | .error _ => (.error .cannotOpenBeside, fs)
  | .ok settled => (.ok (), settled)

/-- Connects to the database at a path that `shown` writes. -/
def connectTo (fs : FileSystem) (shown : String) (path : RawPath) :
    Except StoreProblem Unit × FileSystem :=
  match fs.write path [], fs.read path with
  | .ok made, .error .notFound => made.attach path true
  | .ok _, .ok [] => fs.attach path false
  | .ok _, .ok _ =>
    let (result, settled) := fs.attach path false
    (result.bind fun _ => .error .notDatabase, settled)
  | _, _ => (.error (.cannotOpen shown), fs)

end FileSystem

namespace Session

/-- What the work comes to on a workspace: its result, the lines printed, and the workspace
behind it. -/
def apply {α : Type} (work : Session α) (w : Workspace) : Except Error α × List String × Workspace :=
  let (result, state) := Id.run (work.run.run { workspace := w })
  (result, state.printed, state.workspace)

/-- Prints a line. -/
def print (line : String) : Session Unit :=
  modify fun s => { s with printed := s.printed ++ [line] }

/-- The files. -/
def files : Session FileSystem := return (← get).workspace.files

/-- Other files in place of those that were there. -/
def setFiles (files : FileSystem) : Session Unit :=
  modify fun s => { s with workspace := { s.workspace with files } }

/-- The database of the configuration is this one now, unless it lies in no file. -/
def keep (config : Config) (d : Database) : Session Unit :=
  match DatabasePlace.ofText config.database with
  | .ok (.file _) => modify fun s => { s with workspace := { s.workspace with database := some d } }
  | _ => return ()

/-- The database of the configuration, made if it is not there. -/
def connect (config : Config) : Session Database := do
  match DatabasePlace.ofText config.database with
  | .error problem => throw (.store problem)
  | .ok .memory => return {}
  | .ok (.file path) =>
    let w := (← get).workspace
    let (result, files) := w.files.connectTo config.database (w.files.fullPath path)
    setFiles files
    match result with
    | .error problem => throw (.store problem)
    | .ok _ =>
      let d := w.database.getD {}
      keep config d
      return d

/-- The database of the configuration with all migrations applied. -/
def openDatabase (config : Config) : Session Database := do
  let d ← connect config
  let d := d.migrate (← get).workspace.now
  keep config d
  return d

/-- Changes the store of the database. -/
def change {α : Type} (config : Config) (d : Database) (c : Change α) : Session α := do
  let (result, store) := c.apply d.store
  keep config { d with store }
  result

/-- The document in a file. -/
def readDocument (path : RawPath) : Session Document := do
  match (← files).read path with
  | .error .isDirectory => throw .json
  | .error problem => throw (.file problem)
  | .ok bytes =>
    match Document.ofBytes? bytes with
    | some d => return d
    | none => throw .json

/-- Makes the directory that a path lies in, unless it is there. What is made before a problem
stays. -/
def makeParent (path : RawPath) : Session Unit := do
  let fs ← files
  let parent := FilePath.parent path
  if parent ≠ [] ∧ (fs.locate parent).toOption.isNone then
    let (result, fs) := fs.makeDirectories parent
    setFiles fs
    match result with
    | .ok _ => return ()
    | .error problem => throw (.system problem)

/-- Writes a document into a file, which is emptied first. If the disk does not take it all, the file
is left with what it took. -/
def writeDocument (path : RawPath) (d : Document) : Session Unit := do
  let fs ← files
  let bytes := Text.encode d.write
  match fs.write path (fs.disk.taken bytes) with
  | .error problem => throw (.file problem)
  | .ok written =>
    setFiles written
    match fs.disk.problem? (bytes.length - fs.disk.heldBack) with
    | some problem => throw (.output problem)
    | none => return ()

end Session
end ApiCatalog
