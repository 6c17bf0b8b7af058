import ApiCatalog.Document.Basic
import ApiCatalog.Json.Printer

/-!
# Documents as JSON

Every entry is an object with its fields in a fixed order. A field of a tag or method that is
absent is left out, and so is a part of a docblock that is empty; everything else is written
even when empty. The text of a document is the layout over several lines.
-/

namespace ApiCatalog

namespace Json

/-- The field, if there is a value. -/
def field? {α : Type} (key : String) (encode : α → Json) (value : Option α) :
    List (String × Json) :=
  match value with
  | some v => [(key, encode v)]
  | none => []

/-- An array of encoded items. -/
def list {α : Type} (encode : α → Json) (items : List α) : Json := .array (items.map encode)

/-- An object from the entries of a dictionary. -/
def ofDictionary {α : Type} (encode : α → Json) (d : Dictionary α) : Json :=
  record (d.entries.map fun e => (e.1, encode e.2))

/-- A text or null. -/
def textOrNull (s : Option String) : Json := s.elim .null .text

end Json

open Json

def Tag.encode (t : Tag) : Json :=
  record <|
    [("name", .text t.name), ("description", .text t.description)] ++
    field? "types" texts t.types ++ field? "link" .text t.link ++
    field? "variable" .text t.varName ++ field? "refers" .text t.refers ++
    field? "version" .text t.version

def Docblock.encode (d : Docblock) : Json :=
  record <|
    (if d.summary.isEmpty then [] else [("summary", .text d.summary)]) ++
    (if d.description.isEmpty then [] else [("description", .text d.description)]) ++
    (if d.tags.isEmpty then [] else [("tags", list Tag.encode d.tags)])

def ArgumentEntry.encode (a : ArgumentEntry) : Json :=
  record [("name", .text a.name), ("default", textOrNull a.default), ("type", .text a.type)]

def ConstantEntry.encode (c : ConstantEntry) : Json :=
  record [("name", .text c.name), ("docblock", c.docblock.encode)]

def PropertyEntry.encode (p : PropertyEntry) : Json :=
  record [("name", .text p.name), ("static", .bool p.isStatic),
    ("visibility", .text p.visibility), ("docblock", p.docblock.encode)]

def MethodEntry.encode (m : MethodEntry) : Json :=
  record <|
    [("name", .text m.name), ("aliases", ofDictionary .text m.aliases)] ++
    field? "final" .bool m.isFinal ++ field? "abstract" .bool m.isAbstract ++
    [("static", .bool m.isStatic), ("visibility", .text m.visibility),
      ("arguments", list ArgumentEntry.encode m.arguments), ("docblock", m.docblock.encode)]

def FunctionEntry.encode (f : FunctionEntry) : Json :=
  record [("name", .text f.name), ("namespace", .text f.ns),
    ("aliases", ofDictionary .text f.aliases),
    ("arguments", list ArgumentEntry.encode f.arguments), ("docblock", f.docblock.encode)]

def ClassEntry.encode (c : ClassEntry) : Json :=
  record [("name", .text c.name), ("namespace", .text c.ns), ("final", .bool c.isFinal),
    ("abstract", .bool c.isAbstract), ("extends", .text c.parent),
    ("implements", texts c.implements), ("constants", list ConstantEntry.encode c.constants),
    ("properties", list PropertyEntry.encode c.properties),
    ("methods", list MethodEntry.encode c.methods), ("docblock", c.docblock.encode)]

def InterfaceEntry.encode (i : InterfaceEntry) : Json :=
  record [("name", .text i.name), ("namespace", .text i.ns), ("extends", texts i.parents),
    ("constants", list ConstantEntry.encode i.constants),
    ("properties", list PropertyEntry.encode i.properties),
    ("methods", list MethodEntry.encode i.methods), ("docblock", i.docblock.encode)]

def AliasEntry.encode (a : AliasEntry) : Json :=
  record [("alias", .text a.oldName), ("original", .text a.newName), ("version", .text a.version)]

def FileEntry.encode (f : FileEntry) : Json :=
  record [("docblock", f.docblock.encode), ("constants", list ConstantEntry.encode f.constants),
    ("functions", list FunctionEntry.encode f.functions),
    ("classes", list ClassEntry.encode f.classes),
    ("interfaces", list InterfaceEntry.encode f.interfaces)]

def Document.encode (d : Document) : Json :=
  record [("files", ofDictionary FileEntry.encode d.files),
    ("aliases", list AliasEntry.encode d.aliases)]

/-- The text of a document. -/
def Document.write (d : Document) : String := .ofList d.encode.pretty

end ApiCatalog
