import ApiCatalog.Config.Basic
import ApiCatalog.Document.Encode
import ApiCatalog.FileSystem

/-!
# Configurations as JSON

Every setting is written, those at their default too; only a branch without a classmap leaves
that field out.
-/

namespace ApiCatalog

open Json

/-- The word for a strictness. -/
def Strictness.keyword : Strictness → String
  | .permissive => "permissive"
  | .strict => "strict"

def ErrorHandling.encode (e : ErrorHandling) : Json :=
  record [("strictness", .text e.strictness.keyword), ("max_errors", .nat e.maxErrors.toNat)]

def Branch.encode (b : Branch) : Json :=
  record <| [("paths", texts b.paths), ("files", texts b.files)] ++
    field? "classmap" .text b.classmap

def Config.encode (c : Config) : Json :=
  record [("database", .text c.database), ("data_file", .text c.dataFile),
    ("repos", .text c.repos), ("extension", .text c.extension), ("exclude", texts c.exclude),
    ("stable_releases", ofDictionary (ofDictionary .text) c.stableReleases),
    ("branches", ofDictionary Branch.encode c.branches),
    ("error_handling", c.errorHandling.encode)]

/-- The text of a configuration. -/
def Config.write (c : Config) : String := .ofList c.encode.pretty

/-- Saves the configuration in the file at the path. If the disk does not take it all, the file is
left with what it took. -/
def Config.save (c : Config) (files : FileSystem) (path : RawPath) :
    Except FileProblem Unit × FileSystem :=
  let bytes := Text.encode c.write
  match files.write path (files.disk.taken bytes) with
  | .error problem => (.error problem, files)
  | .ok written => (FileSystem.allow (files.disk.problem? bytes.length), written)

end ApiCatalog
