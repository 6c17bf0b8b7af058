import ApiCatalog.Dictionary
import ApiCatalog.Docblock.Basic
import ApiCatalog.Name

/-!
# Documents

A document holds what the files of one release declare. It is written after the files are
read and imported into a catalogue later, so it stands on its own: per file the constants,
functions, classes and interfaces with their docblocks, and the class aliases of the release.
Elements carry short names.
-/

namespace ApiCatalog

/-- A parameter of a function or method. -/
structure ArgumentEntry where
  name : String
  /-- The default value as written. -/
  default : Option String := none
  /-- The declared type, empty if there is none. -/
  type : String := ""
deriving DecidableEq, Repr, Inhabited

/-- A constant, of a file or of a class. -/
structure ConstantEntry where
  name : String
  docblock : Docblock := {}
deriving DecidableEq, Repr, Inhabited

/-- A property of a class. -/
structure PropertyEntry where
  name : String
  isStatic : Bool := false
  visibility : String := "public"
  docblock : Docblock := {}
deriving DecidableEq, Repr, Inhabited

/-- A method; whether it is final or abstract is only said of methods of classes. -/
structure MethodEntry where
  name : String
  /-- The imports in force where the method is declared. -/
  aliases : Dictionary String := ∅
  isFinal : Option Bool := none
  isAbstract : Option Bool := none
  isStatic : Bool := false
  visibility : String := "public"
  arguments : List ArgumentEntry := []
  docblock : Docblock := {}
deriving DecidableEq, Repr, Inhabited

/-- A function. -/
structure FunctionEntry where
  name : String
  ns : String
  aliases : Dictionary String := ∅
  arguments : List ArgumentEntry := []
  docblock : Docblock := {}
deriving DecidableEq, Repr, Inhabited

/-- A class. -/
structure ClassEntry where
  name : String
  ns : String
  isFinal : Bool := false
  isAbstract : Bool := false
  /-- The qualified name of the parent, empty if there is none. -/
  parent : String := ""
  implements : List String := []
  constants : List ConstantEntry := []
  properties : List PropertyEntry := []
  methods : List MethodEntry := []
  docblock : Docblock := {}
deriving DecidableEq, Repr, Inhabited

/-- An interface. -/
structure InterfaceEntry where
  name : String
  ns : String
  parents : List String := []
  constants : List ConstantEntry := []
  properties : List PropertyEntry := []
  methods : List MethodEntry := []
  docblock : Docblock := {}
deriving DecidableEq, Repr, Inhabited

/-- An old name under which a class can still be reached, and the version that drops it. -/
structure AliasEntry where
  oldName : String
  newName : String
  version : String
deriving DecidableEq, Repr, Inhabited

/-- What one file declares. -/
structure FileEntry where
  docblock : Docblock := {}
  constants : List ConstantEntry := []
  functions : List FunctionEntry := []
  classes : List ClassEntry := []
  interfaces : List InterfaceEntry := []
deriving DecidableEq, Repr, Inhabited

/-- What the files of one release declare. -/
structure Document where
  files : Dictionary FileEntry := ∅
  aliases : List AliasEntry := []
deriving DecidableEq, Repr, Inhabited

namespace Document

/-- The classes of all files, in order of the files' keys. -/
def classes (d : Document) : List ClassEntry := d.files.values.flatMap FileEntry.classes

/-- The interfaces of all files, in order of the files' keys. -/
def interfaces (d : Document) : List InterfaceEntry := d.files.values.flatMap FileEntry.interfaces

/-- The functions of all files, in order of the files' keys. -/
def functions (d : Document) : List FunctionEntry := d.files.values.flatMap FileEntry.functions

end Document
end ApiCatalog
