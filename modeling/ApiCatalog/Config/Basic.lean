import ApiCatalog.Dictionary
import ApiCatalog.Error
import ApiCatalog.FilePath

/-!
# Configuration

Where the data lies, which release stands for a branch of a software, and which directories and
files of a release are read. What is read depends on the first character of the release, its
major branch.
-/

namespace ApiCatalog

/-- What a file that cannot be read does to the whole run. -/
inductive Strictness where
  /-- The file is skipped. -/
  | permissive
  /-- The run fails. -/
  | strict
deriving DecidableEq, Repr, Inhabited

/-- How failing files are dealt with. -/
structure ErrorHandling where
  strictness : Strictness := .strict
  /-- How many files may be skipped. -/
  maxErrors : UInt64 := 100
deriving DecidableEq, Repr, Inhabited

/-- What is read of the releases of one major branch. -/
structure Branch where
  /-- Directories that are walked. -/
  paths : List String := []
  /-- Files that are read beside them. -/
  files : List String := []
  /-- The file that registers old names of classes. -/
  classmap : Option String := none
deriving DecidableEq, Repr, Inhabited

/-- The releases that stand for branches where nothing is configured. -/
def defaultReleases : Dictionary (Dictionary String) :=
  .ofList [("cms", .ofList [("2.5", "2.5.28"), ("3.x", "3.9.8")])]

/-- The configuration of a catalogue. -/
structure Config where
  database : String := "apidoc.sqlite"
  /-- Where documents are written to and imported from. -/
  dataFile : String := "data.json"
  /-- The directory with one checkout per software. -/
  repos : String := "repos"
  extension : String := "php"
  exclude : List String := []
  /-- Releases under branches under slugs of software. -/
  stableReleases : Dictionary (Dictionary String) := defaultReleases
  /-- What is read, under major branches. -/
  branches : Dictionary Branch := ∅
  errorHandling : ErrorHandling := {}
deriving DecidableEq, Repr, Inhabited

/-- The name of the configuration file. -/
def Config.fileName : String := ".apidoc.config.json"

/-- The major branch of a release. -/
def majorBranch (release : String) : String := .ofList (release.toList.take 1)

/-- Nothing is read. -/
def Branch.isEmpty (b : Branch) : Bool := b.paths.isEmpty && b.files.isEmpty

namespace Config

/-- The release that stands for a branch of a software. -/
def resolveRelease (c : Config) (software branch : String) : Except Error String :=
  match (c.stableReleases.get? software).bind (·.get? branch) with
  | some release => .ok release
  | none => .error (.unknownRelease software branch)

/-- What is read of a release. -/
def branchFor (c : Config) (release : String) : Except Error Branch :=
  let missing := Error.notConfigured release (majorBranch release)
  match c.branches.get? (majorBranch release) with
  | some branch => if branch.isEmpty then .error missing else .ok branch
  | none => .error missing

/-- The checkout of a software. -/
def repoPath (c : Config) (software : String) : RawPath :=
  FilePath.join (Text.encode c.repos) (Text.encode software)

end Config
end ApiCatalog
