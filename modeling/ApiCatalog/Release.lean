import ApiCatalog.Config.Basic
import ApiCatalog.SourceFile

/-!
# Reading a release

The directories, files and classmap that are configured for a release are read out of its
checkout into one document. What is configured and not there is noted. A file that fails stops a
strict run; a permissive run skips it, and gives up once it has skipped more than it may. A run that
stops leaves what it has reported until then.
-/

namespace ApiCatalog

/-- A file that was left out, under its key, and why. -/
structure SkippedFile where
  key : String
  error : Error
deriving DecidableEq, Repr, Inhabited

/-- What came out of reading a release. -/
structure Report where
  document : Document := {}
  skipped : List SkippedFile := []
  /-- Directories and files that are configured and not there. -/
  missing : List String := []
deriving DecidableEq, Repr, Inhabited

/-- How a run stopped: why, and what it had reported by then. -/
structure Halt where
  error : Error
  report : Report
deriving DecidableEq, Repr, Inhabited

namespace Report

/-- The report with an entry more. -/
def addFile (r : Report) (key : String) (entry : FileEntry) : Report :=
  { r with document := { r.document with files := r.document.files.insert key entry } }

/-- The report with entries more. -/
def addFiles (r : Report) (files : Dictionary FileEntry) : Report :=
  { r with document := { r.document with files := r.document.files.merge files } }

/-- The report with a path more that is not there. -/
def addMissing (r : Report) (path : String) : Report := { r with missing := r.missing ++ [path] }

/-- Work that may fail, next to this report. -/
def within {α : Type} (r : Report) (work : Except Error α) : Except Halt α :=
  work.mapError fun error => ⟨error, r⟩

/-- The report with a file left out, if that is allowed. A file too many is noted as well. -/
def skip (r : Report) (handling : ErrorHandling) (key : String) (error : Error) :
    Except Halt Report :=
  match handling.strictness with
  | .strict => .error ⟨error, r⟩
  | .permissive =>
    let skipped := r.skipped ++ [⟨key, error⟩]
    if skipped.length > handling.maxErrors.toNat then
      .error ⟨.tooManyFailures skipped.length, { r with skipped }⟩
    else .ok { r with skipped }

/-- The report with what reading a file gave. -/
def record (r : Report) (handling : ErrorHandling) (key : String) (entry : Except Error FileEntry) :
    Except Halt Report :=
  match entry with
  | .ok entry => .ok (r.addFile key entry)
  | .error e => r.skip handling key e

end Report

/-- A checkout that is read: where it lies and by which rules. -/
structure ReleaseReader where
  config : Config
  selection : FileSelection
  files : FileSystem
  checkout : RawPath

namespace ReleaseReader

/-- The reader of a checkout by a configuration. -/
def ofConfig (config : Config) (files : FileSystem) (checkout : RawPath) :
    Except Error ReleaseReader :=
  return { config, files, checkout
           selection := ← FileSelection.ofTexts config.extension config.exclude }

/-- Where a configured path lies. -/
def place (reader : ReleaseReader) (path : String) : RawPath :=
  FilePath.join reader.checkout (Text.encode path)

/-- The report with the files of a list, each recorded on its own. -/
def addEach (reader : ReleaseReader) (r : Report) (paths : List RawPath) : Except Halt Report :=
  paths.foldlM
    (fun r path =>
      r.record reader.config.errorHandling (FilePath.relativeKey path reader.checkout)
        (parseFile reader.files path))
    r

/-- The report with the files of a configured directory. -/
def addDirectory (reader : ReleaseReader) (r : Report) (path : String) : Except Halt Report := do
  let root := reader.place path
  if !reader.files.hasDirectory root then return r.addMissing path
  match reader.config.errorHandling.strictness with
  | .strict =>
    return r.addFiles
      (← r.within (parseDirectory reader.selection reader.files root reader.checkout))
  | .permissive => reader.addEach r (← r.within (reader.selection.list reader.files root))

/-- The report with a configured file. -/
def addSingle (reader : ReleaseReader) (r : Report) (path : String) : Except Halt Report :=
  let whole := reader.place path
  if !reader.files.hasFile whole then .ok (r.addMissing path)
  else
    r.record reader.config.errorHandling (FilePath.normalize path) (parseFile reader.files whole)

/-- The aliases in a configured classmap; none if it is not there. -/
def aliases (reader : ReleaseReader) (classmap : Option String) : Except Error (List AliasEntry) :=
  match classmap with
  | none => .ok []
  | some path =>
    let whole := reader.place path
    if reader.files.hasFile whole then parseClassmap reader.files whole else .ok []

/-- Reads a release, as far as that goes. -/
def run (reader : ReleaseReader) (release : String) : Except Halt Report := do
  let branch ← ({} : Report).within (reader.config.branchFor release)
  let r ← branch.paths.foldlM reader.addDirectory {}
  let r ← branch.files.foldlM reader.addSingle r
  let aliases ← r.within (reader.aliases branch.classmap)
  return { r with document := { r.document with aliases } }

/-- Reads a release. -/
def read (reader : ReleaseReader) (release : String) : Except Error Report :=
  (reader.run release).mapError Halt.error

end ReleaseReader
end ApiCatalog
