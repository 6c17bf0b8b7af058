import ApiCatalog.FilePath

/-!
# Commands

What the catalogue can be asked to do: to read a release into a document, to import a document
into a version, to register software and versions, to show a version, and to bring the database
up to date. A command is written as words, its name first; an option is a word with two hyphens
in front and its value behind it.
-/

namespace ApiCatalog

/-- A command with its options. -/
inductive Command where
  /-- Reads the release given, or else the one that stands for the branch. -/
  | parseFiles (software branch : String) (release : Option String) (output : Option RawPath)
  | importData (software version : String) (data : Option RawPath)
  | addSoftware (name slug : Option String)
  | addVersion (version : String) (software displayName : Option String)
  | dashboard (software version : String) (ns : Option String)
  | migrate (status : Bool)
deriving DecidableEq, Repr, Inhabited

namespace Command

/-- The words of a command sorted into the values of options and all others. -/
def sortWords (flags : List String) : List String → Option (List (String × String) × List String)
  | [] => some ([], [])
  | word :: rest =>
    if flags.contains word then
      (sortWords flags rest).map fun (options, others) => ((word, "") :: options, others)
    else if word.startsWith "--" then
      match rest with
      | [] => none
      | value :: rest =>
        (sortWords flags rest).map fun (options, others) => ((word, value) :: options, others)
    else (sortWords flags rest).map fun (options, others) => (options, word :: others)

/-- The value of an option. -/
def option? (options : List (String × String)) (name : String) : Option String :=
  (options.find? (·.1 == name)).map Prod.snd

/-- Every option is one of those named. -/
def areKnown (options : List (String × String)) (names : List String) : Bool :=
  options.all fun o => names.contains o.1

/-- The command that words write. -/
def ofWords? (words : List String) : Option Command := do
  let name ← words.head?
  let (options, others) ← sortWords ["--status"] words.tail
  match name, others with
  | "parse-files", [software, branch] =>
    guard (areKnown options ["--release", "--output"])
    return .parseFiles software branch (option? options "--release")
      ((option? options "--output").map Text.encode)
  | "import-data", [software, version] =>
    guard (areKnown options ["--data"])
    return .importData software version ((option? options "--data").map Text.encode)
  | "add-software", [] =>
    guard (areKnown options ["--name", "--slug"])
    return .addSoftware (option? options "--name") (option? options "--slug")
  | "add-software-version", [version] =>
    guard (areKnown options ["--software", "--display-name"])
    return .addVersion version (option? options "--software") (option? options "--display-name")
  | "dashboard", [software, version] =>
    guard (areKnown options ["--namespace"])
    return .dashboard software version (option? options "--namespace")
  | "migrate", [] =>
    guard (areKnown options ["--status"])
    return .migrate (option? options "--status").isSome
  | _, _ => none

end Command
end ApiCatalog
