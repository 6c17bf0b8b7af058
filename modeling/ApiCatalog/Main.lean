import ApiCatalog.Command.Run
import ApiCatalog.Config.Decode

/-!
# Command line

The arguments are commands with `--` between them; they are run in one session, until one fails.
Standard input names the files that the session works on, one path per line. A document that a
command writes is written to its file.
-/

namespace ApiCatalog

/-- The words of each command. -/
def splitCommands : List String → List (List String)
  | [] => [[]]
  | word :: rest =>
    if word = "--" then [] :: splitCommands rest
    else
      match splitCommands rest with
      | [] => [[word]]
      | words :: others => (word :: words) :: others

/-- The file that a command writes. -/
def Command.written? (config : Config) : Command → Option RawPath
  | .parseFiles _ _ _ output => some (output.getD (Text.encode config.dataFile))
  | _ => none

/-- The files at the paths that standard input names. -/
partial def loadFiles (input : IO.FS.Stream) (files : FileSystem) : IO FileSystem := do
  let line ← input.getLine
  if line.isEmpty then return files
  let path := String.ofList (Text.trimEnd line.toList)
  let bytes ← IO.FS.readBinFile path
  loadFiles input (files.addAll [(Text.encode path, .file {} bytes.toList)])

/-- Writes a file to its place. -/
def saveFile (files : FileSystem) (path : RawPath) : IO Unit := do
  match files.read path with
  | .error _ => return ()
  | .ok bytes =>
    let directory := FilePath.display (FilePath.parent path)
    if directory ≠ "" then IO.FS.createDirAll directory
    IO.FS.writeBinFile (FilePath.display path) ⟨bytes.toArray⟩

/-- Runs commands one after the other; the result is the exit code. -/
def runAll (config : Config) (w : Workspace) : List (List String) → IO UInt32
  | [] => return 0
  | words :: rest => do
    match Command.ofWords? words with
    | none =>
      IO.eprintln ("✗ unknown command: " ++ " ".intercalate words)
      return 2
    | some command =>
      let (result, printed, w) := (command.run config).apply w
      printed.forM IO.println
      match result with
      | .error e =>
        IO.eprintln ("✗ " ++ e.message)
        return 1
      | .ok _ =>
        if let some path := command.written? config then saveFile w.files path
        runAll config w rest

/-- Runs a session on the files that standard input names. -/
def runSession (args : List String) : IO UInt32 := do
  let files ← loadFiles (← IO.getStdin) {}
  let path := Text.encode Config.fileName
  let load := if files.hasFile path then Config.load files path else .ok {}
  match load with
  | .error e =>
    IO.eprintln ("✗ " ++ e.message)
    return 1
  | .ok config => runAll config { files, now := "in this session" } (splitCommands args)

end ApiCatalog

/-- Runs the commands that the arguments write. -/
def main (args : List String) : IO UInt32 := ApiCatalog.runSession args
