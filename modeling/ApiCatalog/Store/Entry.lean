import ApiCatalog.Document.Basic
import ApiCatalog.Store.Row
import ApiCatalog.Store.TextList

/-!
# From entries to rows

Each kind of element has its entry in documents and its row in the store. A fresh row is made of
an entry and its owner. A row that is there already is refreshed by a later entry of the same
natural key: its attributes are taken over, its namespace and short name stay, and so does a
parent, which is no matter of the entry alone.
-/

namespace ApiCatalog

/-- The return types and description that a docblock gives: those of its last such tag. -/
def returnInfo (d : Docblock) : List String × String :=
  match d.lastNamed? "return" with
  | some tag => (tag.types.getD [], tag.description)
  | none => ([], "")

/-- The types and description that a docblock gives an argument: those of the first tag for it,
and then its declared type unless that is listed. Without a tag there are none. -/
def argumentInfo (a : ArgumentEntry) (d : Docblock) : List String × String :=
  match (d.named "param").find? (·.varName == some a.name) with
  | some tag =>
    let types := tag.types.getD []
    (if a.type = "" ∨ a.type ∈ types then types else types ++ [a.type], tag.description)
  | none => ([], "")

namespace ElementRow

/-- The row of an element of a version. -/
def make (name ns : String) (d : Docblock) (version : Int) : ElementRow where
  name := qualifiedName (storedNamespace ns) name
  ns := storedNamespace ns
  shortName := name
  summary := d.summary
  description := d.description
  version := version

/-- The row with what a later entry says. -/
def refresh (r : ElementRow) (name ns : String) (d : Docblock) : ElementRow :=
  { r with
    name := qualifiedName (storedNamespace ns) name
    summary := d.summary
    description := d.description }

end ElementRow

/-- The row of a property. -/
def PropertyEntry.row (e : PropertyEntry) (owner : Int) : MemberRow where
  name := e.name
  summary := e.docblock.summary
  description := e.docblock.description
  isStatic := e.isStatic
  visibility := e.visibility
  owner := owner

namespace MethodEntry

/-- The row of a method as a member. -/
def memberRow (e : MethodEntry) (owner : Int) : MemberRow where
  name := e.name
  summary := e.docblock.summary
  description := e.docblock.description
  isStatic := e.isStatic
  visibility := e.visibility
  owner := owner

/-- The row of a method of an interface. -/
def row (e : MethodEntry) (owner : Int) : MethodRow :=
  { e.memberRow owner with
    returnTypes := TextList.write (returnInfo e.docblock).1
    returnDescription := (returnInfo e.docblock).2 }

/-- The row of a method of a class; it is neither final nor abstract unless the entry says so. -/
def classRow (e : MethodEntry) (owner : Int) : ClassMethodRow :=
  { e.row owner with
    isFinal := e.isFinal.getD false
    isAbstract := e.isAbstract.getD false }

end MethodEntry

namespace ElementKind

/-- The entries of a kind of element. -/
@[reducible] def Entry : ElementKind → Type
  | .classes => ClassEntry
  | .interfaces => InterfaceEntry
  | .classMethods | .interfaceMethods => MethodEntry
  | .classProperties => PropertyEntry
  | .functions => FunctionEntry
  | .aliases => AliasEntry

/-- The name of an entry in messages. -/
def entryName : (k : ElementKind) → k.Entry → String
  | .classes, e => e.name
  | .interfaces, e => e.name
  | .classMethods, e => e.name
  | .interfaceMethods, e => e.name
  | .classProperties, e => e.name
  | .functions, e => e.name
  | .aliases, e => e.oldName

/-- The docblock of an entry; that of an alias is empty. -/
def docblock : (k : ElementKind) → k.Entry → Docblock
  | .classes, e => e.docblock
  | .interfaces, e => e.docblock
  | .classMethods, e => e.docblock
  | .interfaceMethods, e => e.docblock
  | .classProperties, e => e.docblock
  | .functions, e => e.docblock
  | .aliases, _ => {}

/-- The arguments of an entry, if its kind takes any. -/
def arguments : (k : ElementKind) → k.Entry → List ArgumentEntry
  | .classMethods, e => e.arguments
  | .interfaceMethods, e => e.arguments
  | .functions, e => e.arguments
  | _, _ => []

/-- The row of an entry under its owner. -/
def fresh : (k : ElementKind) → k.Entry → Int → k.Row
  | .classes, e, owner =>
    { ElementRow.make e.name e.ns e.docblock owner with
      isFinal := e.isFinal
      isAbstract := e.isAbstract
      parent := none }
  | .interfaces, e, owner => ElementRow.make e.name e.ns e.docblock owner
  | .classMethods, e, owner => e.classRow owner
  | .interfaceMethods, e, owner => e.row owner
  | .classProperties, e, owner => e.row owner
  | .functions, e, owner =>
    { ElementRow.make e.name e.ns e.docblock owner with
      returnTypes := TextList.write (returnInfo e.docblock).1
      returnDescription := (returnInfo e.docblock).2 }
  | .aliases, e, owner =>
    { oldName := e.oldName, newName := e.newName, dropped := e.version, version := owner }

/-- A row with what a later entry of the same natural key says. -/
def refresh : (k : ElementKind) → k.Entry → k.Row → k.Row
  | .classes, e, r =>
    { r with
      toElementRow := r.toElementRow.refresh e.name e.ns e.docblock
      isFinal := e.isFinal
      isAbstract := e.isAbstract }
  | .interfaces, e, r => r.refresh e.name e.ns e.docblock
  | .classMethods, e, r => e.classRow r.owner
  | .interfaceMethods, e, r => e.row r.owner
  | .classProperties, e, r => e.row r.owner
  | .functions, e, r =>
    { r with
      toElementRow := r.toElementRow.refresh e.name e.ns e.docblock
      returnTypes := TextList.write (returnInfo e.docblock).1
      returnDescription := (returnInfo e.docblock).2 }
  | .aliases, e, r => { r with dropped := e.version }

/-- The natural key of an entry under its owner. -/
def entryKey (k : ElementKind) (e : k.Entry) (owner : Int) : NaturalKey := k.key (k.fresh e owner)

end ElementKind
end ApiCatalog
