import ApiCatalog.Config.Encode
import ApiCatalog.Json.Decode
import ApiCatalog.Text.Utf8

/-!
# Configurations from JSON

Settings that are missing take their default; null is no setting, save for a classmap. Every
record may also be an array of its fields.
-/

namespace ApiCatalog

open Json

/-- An object whose values all decode; of values under one key the last counts. -/
def Json.dictionary? {α : Type} (value : Json → Option α) (j : Json) : Option (Dictionary α) :=
  (entries? value j).map Dictionary.ofList

/-- A number of the range of the error count. -/
def Json.word64? : Json → Option UInt64
  | .number n =>
    n.toNat?.bind fun m => if h : m < UInt64.size then some (.ofNatLT m h) else none
  | _ => none

/-- The strictness that a word names. -/
def Strictness.ofKeyword? : String → Option Strictness
  | "permissive" => some .permissive
  | "strict" => some .strict
  | _ => none

/-- A strictness is its word, or an object with nothing under the word. -/
def Strictness.decode : Json → Option Strictness
  | .text word => ofKeyword? word
  | .object [(some word, .null)] => ofKeyword? word
  | _ => none

def ErrorHandling.decode (j : Json) : Option ErrorHandling := do
  match ← members? ["strictness", "max_errors"] j with
  | [strictness, maxErrors] =>
    return {
      strictness := ← orElse .strict Strictness.decode strictness
      maxErrors := ← orElse 100 word64? maxErrors }
  | _ => none

def Branch.decode (j : Json) : Option Branch := do
  match ← members? ["paths", "files", "classmap"] j with
  | [paths, files, classmap] =>
    return {
      paths := ← orElse [] (list? text?) paths
      files := ← orElse [] (list? text?) files
      classmap := ← optional text? classmap }
  | _ => none

def Config.decode (j : Json) : Option Config := do
  match ← members? ["database", "data_file", "repos", "extension", "exclude", "stable_releases",
      "branches", "error_handling"] j with
  | [database, dataFile, repos, extension, exclude, stableReleases, branches, errorHandling] =>
    let default : Config := {}
    return {
      database := ← orElse default.database text? database
      dataFile := ← orElse default.dataFile text? dataFile
      repos := ← orElse default.repos text? repos
      extension := ← orElse default.extension text? extension
      exclude := ← orElse [] (list? text?) exclude
      stableReleases := ← orElse defaultReleases (dictionary? (dictionary? text?)) stableReleases
      branches := ← orElse ∅ (dictionary? Branch.decode) branches
      errorHandling := ← orElse {} ErrorHandling.decode errorHandling }
  | _ => none

/-- The configuration that a text writes. -/
def Config.read? (text : List Char) : Option Config := (Json.read? text).bind Config.decode

/-- The configuration that a file holds. -/
def Config.ofBytes (bytes : List UInt8) : Except Error Config :=
  match Text.decode? bytes with
  | none => .error (.file .notText)
  | some source =>
    match Config.read? source with
    | none => .error .json
    | some config => .ok config

/-- The configuration in a file. -/
def Config.load (files : FileSystem) (path : RawPath) : Except Error Config :=
  match files.read path with
  | .error problem => .error (.file problem)
  | .ok bytes => Config.ofBytes bytes

/-- The configuration in the usual file, or the default one if that cannot be read. -/
def Config.loadOrDefault (files : FileSystem) : Config :=
  match Config.load files (Text.encode Config.fileName) with
  | .ok config => config
  | .error _ => {}

end ApiCatalog
