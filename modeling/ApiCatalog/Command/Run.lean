import ApiCatalog.Command.Basic
import ApiCatalog.Session
import ApiCatalog.Store.Browse
import ApiCatalog.Store.Import
import ApiCatalog.Store.Software

/-!
# Running commands

What each command does and prints. A command that fails prints what it did until then.
-/

namespace ApiCatalog

namespace Command

open Session

/-- A number under its title. -/
def countLine (title : String) (n : Nat) : String := "  " ++ title ++ ": " ++ toString n

/-- Prints that something was done. -/
def printDone (what : String) : Session Unit := print ("✓ " ++ what)

/-- Prints that something was not as expected. -/
def printWarning (what : String) : Session Unit := print ("⚠ " ++ what)

/-- Prints what is being done. -/
def printStep (what : String) : Session Unit := print ("→ " ++ what)

/-- The release given, or else the one that stands for the branch. -/
def chooseRelease (config : Config) (software branch : String) (release : Option String) :
    Except Error String :=
  match release with
  | some release => .ok release
  | none => config.resolveRelease software branch

/-- Reads a release into a document and writes that to a file. -/
def parseFilesWith (config : Config) (software branch : String) (release : Option String)
    (output : Option RawPath) : Session Unit := do
  let release ← chooseRelease config software branch release
  let checkout := config.repoPath software
  let reader ← ReleaseReader.ofConfig config (← files) checkout
  printStep ("Parsing " ++ software ++ " " ++ release ++ " in " ++ FilePath.display checkout)
  let report ← reader.read release
  report.missing.forM fun path => printWarning ("Configured path " ++ path ++ " not found")
  let output := output.getD (Text.encode config.dataFile)
  makeParent output
  writeDocument output report.document
  printDone ("Data written to " ++ FilePath.display output)
  print (countLine "Files" report.document.files.keys.length)
  print (countLine "Classes" report.document.classes.length)
  print (countLine "Interfaces" report.document.interfaces.length)
  print (countLine "Functions" report.document.functions.length)
  print (countLine "Aliases" report.document.aliases.length)

/-- Imports the document in a file into a version. -/
def importDataWith (config : Config) (software version : String) (data : Option RawPath) :
    Session Unit := do
  let path := data.getD (Text.encode config.dataFile)
  let document ← readDocument path
  let d ← openDatabase config
  let found ← d.store.getVersion software version
  printStep ("Importing " ++ FilePath.display path ++ " into " ++ software ++ " " ++
    found.row.displayName)
  let counts ← change config d (Change.importDocument found.id document)
  printDone "Import complete"
  print (countLine "Classes" counts.classes)
  print (countLine "Interfaces" counts.interfaces)
  print (countLine "Class methods" counts.classMethods)
  print (countLine "Class properties" counts.classProperties)
  print (countLine "Interface methods" counts.interfaceMethods)
  print (countLine "Functions" counts.functions)
  print (countLine "Aliases" counts.aliases)

/-- Registers a software. -/
def addSoftwareWith (config : Config) (name slug : Option String) : Session Unit := do
  match name, slug with
  | some name, some slug =>
    let d ← openDatabase config
    match ← change config d (Change.addSoftware name slug) with
    | some r => printDone ("Added software " ++ r.row.name ++ " (" ++ r.row.slug ++ ")")
    | none => printWarning ("Software " ++ name ++ " already exists")
  | _, _ => throw .noTerminal

/-- The software under a slug; without a slug it would have to be asked for. -/
def chooseSoftware (store : Store) (slug : Option String) : Except Error (Record Software) :=
  match slug with
  | some slug => store.getSoftware slug
  | none => if store.softwareByName.isEmpty then .error .nothingRegistered else .error .noTerminal

/-- Registers a version of a software. -/
def addVersionWith (config : Config) (version : String) (software displayName : Option String) :
    Session Unit := do
  let d ← openDatabase config
  let chosen ← chooseSoftware d.store software
  match ← change config d (Change.addVersion chosen.id version displayName) with
  | some r => printDone ("Added " ++ chosen.row.name ++ " version " ++ r.row.displayName)
  | none => printWarning (chosen.row.name ++ " version " ++ version ++ " already exists")

/-- A class in a listing: its short name, and the first line of its summary if it has one. -/
def classLine (row : ClassRow) : String :=
  let firstLine := ((Text.lines row.summary.toList).head?).getD []
  "    " ++ row.shortName ++ if row.summary = "" then "" else "  " ++ String.ofList firstLine

/-- Prints the namespaces below a namespace and its classes. -/
def printNamespace (store : Store) (version : Int) (ns : String) : Session Unit := do
  if ns ≠ globalNamespace then
    (store.childNamespaces version ns).forM fun child => print ("  › " ++ child ++ "\\")
  print ("  Classes in " ++ ns ++ ":")
  let place := if ns = globalNamespace then none else some ns
  (store.classesIn version place).forM fun r => print (classLine r.row)

/-- Prints the numbers on a version, its outermost namespaces, and perhaps one namespace. -/
def dashboardWith (config : Config) (software version : String) (ns : Option String) :
    Session Unit := do
  let d ← openDatabase config
  let found ← d.store.getVersion software version
  let board := d.store.dashboard found.id
  print (software ++ " " ++ found.row.displayName)
  print (countLine "Classes" board.classes)
  print (countLine "Interfaces" board.interfaces)
  print (countLine "Functions" board.functions)
  print (countLine "Deprecations" board.deprecations)
  if !board.namespaces.isEmpty then
    print "  Namespaces:"
    board.namespaces.forM fun root => print ("    " ++ root)
  match ns with
  | some ns => printNamespace d.store found.id ns
  | none => return ()

/-- A migration in a listing. -/
def migrationLine (m : MigrationStatus) : String :=
  let number := String.ofList (List.leftpad 3 '0' (Nat.toDigits 10 m.number))
  match m.applied with
  | some time => "✓ " ++ number ++ " " ++ m.description ++ " (applied " ++ time ++ ")"
  | none => "• " ++ number ++ " " ++ m.description ++ " (pending)"

/-- Lists the migrations, or applies those that are pending. -/
def migrateWith (config : Config) (status : Bool) : Session Unit := do
  let d ← connect config
  if status then d.status.forM fun m => print (migrationLine m)
  else
    keep config (d.migrate (← get).workspace.now)
    if d.pending = 0 then printDone "Database is up to date"
    else
      printDone ("Applied " ++ toString d.pending ++ " migration(s) to " ++ config.database)

/-- Runs a command. -/
def run (config : Config) : Command → Session Unit
  | .parseFiles software branch release output =>
    parseFilesWith config software branch release output
  | .importData software version data => importDataWith config software version data
  | .addSoftware name slug => addSoftwareWith config name slug
  | .addVersion version software displayName => addVersionWith config version software displayName
  | .dashboard software version ns => dashboardWith config software version ns
  | .migrate status => migrateWith config status

end Command
end ApiCatalog
