import ApiCatalog.Store.Change
import ApiCatalog.Store.TextList

/-!
# Columns

The rows as a table shows them: cells under the names of columns, in the order of the table. A
text cell can be written on its own, past the rules by which entries are stored; what must be
unique stays so.
-/

namespace ApiCatalog

/-- A cell of a row. -/
inductive Cell where
  | null
  | int (n : Int)
  | flag (b : Bool)
  | text (s : String)
  /-- A list of texts, as the text of the list. -/
  | list (s : String)
deriving DecidableEq, Repr, Inhabited

/-- The cells of a row under the names of their columns. -/
abbrev Columns := List (String × Cell)

namespace Cell

/-- A text that may be absent. -/
def ofText? (s : Option String) : Cell := s.elim .null .text

/-- An id that may be absent. -/
def ofInt? (n : Option Int) : Cell := n.elim .null .int

end Cell

/-! ## Reading -/

def Software.columns (r : Software) : Columns := [("name", .text r.name), ("slug", .text r.slug)]

def Version.columns (r : Version) : Columns :=
  [("software_id", .int r.software), ("version", .text r.version),
    ("display_name", .text r.displayName)]

/-- The columns that every element of a version starts with. -/
def ElementRow.leadingColumns (r : ElementRow) : Columns :=
  [("name", .text r.name), ("namespace", .ofText? r.ns), ("shortname", .text r.shortName),
    ("summary", .text r.summary), ("description", .text r.description)]

def ElementRow.columns (r : ElementRow) : Columns :=
  r.leadingColumns ++ [("version_id", .int r.version)]

def ClassRow.columns (r : ClassRow) : Columns :=
  r.leadingColumns ++
    [("final", .flag r.isFinal), ("abstract", .flag r.isAbstract),
      ("parent_id", .ofInt? r.parent), ("version_id", .int r.version)]

def FunctionRow.columns (r : FunctionRow) : Columns :=
  r.leadingColumns ++
    [("return_types", .list r.returnTypes), ("return_description", .text r.returnDescription),
      ("version_id", .int r.version)]

/-- The columns that every member starts with. -/
def MemberRow.leadingColumns (r : MemberRow) : Columns :=
  [("name", .text r.name), ("summary", .text r.summary), ("description", .text r.description)]

/-- The columns on how a member is declared. -/
def MemberRow.declarationColumns (r : MemberRow) : Columns :=
  [("static", .flag r.isStatic), ("visibility", .text r.visibility)]

def MemberRow.columns (r : MemberRow) : Columns :=
  r.leadingColumns ++ r.declarationColumns ++ [("parent_id", .int r.owner)]

/-- The columns on what a method returns, and its owner. -/
def MethodRow.trailingColumns (r : MethodRow) : Columns :=
  [("return_types", .list r.returnTypes), ("return_description", .text r.returnDescription),
    ("parent_id", .int r.owner)]

def MethodRow.columns (r : MethodRow) : Columns :=
  r.leadingColumns ++ r.declarationColumns ++ r.trailingColumns

def ClassMethodRow.columns (r : ClassMethodRow) : Columns :=
  r.leadingColumns ++ [("final", .flag r.isFinal), ("abstract", .flag r.isAbstract)] ++
    r.declarationColumns ++ r.trailingColumns

def AliasRow.columns (r : AliasRow) : Columns :=
  [("old_class", .text r.oldName), ("new_class", .text r.newName),
    ("deprecation_version", .text r.dropped), ("version_id", .int r.version)]

def ArgumentRow.columns (r : ArgumentRow) : Columns :=
  [("name", .text r.name), ("description", .text r.description), ("types", .list r.types),
    ("default_value", .ofText? r.default), ("argumented_id", .int r.ownerId),
    ("argumented_type", .text r.ownerWord)]

def DeprecationRow.columns (r : DeprecationRow) : Columns :=
  [("description", .text r.description), ("removal_version", .ofText? r.removal),
    ("deprecatable_id", .int r.ownerId), ("deprecatable_type", .text r.ownerWord)]

/-- The cells of an element. -/
def ElementKind.columns : (k : ElementKind) → k.Row → Columns
  | .classes, r => r.columns
  | .interfaces, r => r.columns
  | .classMethods, r => r.columns
  | .interfaceMethods, r => r.columns
  | .classProperties, r => r.columns
  | .functions, r => r.columns
  | .aliases, r => r.columns

/-- The cells of a record, its id first. -/
def Record.columns {α : Type} (columns : α → Columns) (r : Record α) : Columns :=
  ("id", .int r.id) :: columns r.row

/-- The cells of a link under the names of its two columns. -/
def linkColumns (source target : String) (link : Int × Int) : Columns :=
  [(source, .int link.1), (target, .int link.2)]

/-- All tables by name, each with its rows in order. -/
def Store.tables (s : Store) : List (String × List Columns) :=
  [("software", s.software.records.map (·.columns Software.columns)),
    ("versions", s.versions.records.map (·.columns Version.columns)),
    ("interface_parent", s.interfaceParents.pairs.map (linkColumns "interface_id" "parent_id")),
    ("class_interface", s.classInterfaces.pairs.map (linkColumns "class_id" "interface_id")),
    ("arguments", s.arguments.records.map (·.columns ArgumentRow.columns)),
    ("deprecations", s.deprecations.records.map (·.columns DeprecationRow.columns))] ++
  ElementKind.all.map fun k => (k.tableName, (s.table k).records.map (·.columns k.columns))

/-- What the reader of a row is given for a cell. -/
inductive Field where
  | null
  | int (n : Int)
  | flag (b : Bool)
  | text (s : String)
  | texts (items : List String)
deriving DecidableEq, Repr, Inhabited

/-- The fields of a row under the names of their columns. -/
abbrev Fields := List (String × Field)

/-- The field that a cell is read as; the text of a list is decoded. -/
def Cell.read : Cell → Field
  | .null => .null
  | .int n => .int n
  | .flag b => .flag b
  | .text s => .text s
  | .list s => .texts (TextList.read s)

/-- The row as it is read. -/
def Columns.read (columns : Columns) : Fields := columns.map fun c => (c.1, c.2.read)

/-- All tables by name, with their rows as they are read. -/
def Store.fields (s : Store) : List (String × List Fields) :=
  s.tables.map fun t => (t.1, t.2.map Columns.read)

/-! ## Writing -/

/-- The software with another text in a column. -/
def Software.withText? (r : Software) (column s : String) : Option Software :=
  match column with
  | "name" => some { r with name := s }
  | "slug" => some { r with slug := s }
  | _ => none

/-- The version with another text in a column. -/
def Version.withText? (r : Version) (column s : String) : Option Version :=
  match column with
  | "version" => some { r with version := s }
  | "display_name" => some { r with displayName := s }
  | _ => none

/-- The element with another text in a column. -/
def ElementRow.withText? (r : ElementRow) (column s : String) : Option ElementRow :=
  match column with
  | "name" => some { r with name := s }
  | "namespace" => some { r with ns := some s }
  | "shortname" => some { r with shortName := s }
  | "summary" => some { r with summary := s }
  | "description" => some { r with description := s }
  | _ => none

/-- The function with another text in a column. -/
def FunctionRow.withText? (r : FunctionRow) (column s : String) : Option FunctionRow :=
  match column with
  | "return_types" => some { r with returnTypes := s }
  | "return_description" => some { r with returnDescription := s }
  | _ => (r.toElementRow.withText? column s).map fun e => { r with toElementRow := e }

/-- The member with another text in a column. -/
def MemberRow.withText? (r : MemberRow) (column s : String) : Option MemberRow :=
  match column with
  | "name" => some { r with name := s }
  | "summary" => some { r with summary := s }
  | "description" => some { r with description := s }
  | "visibility" => some { r with visibility := s }
  | _ => none

/-- The method with another text in a column. -/
def MethodRow.withText? (r : MethodRow) (column s : String) : Option MethodRow :=
  match column with
  | "return_types" => some { r with returnTypes := s }
  | "return_description" => some { r with returnDescription := s }
  | _ => (r.toMemberRow.withText? column s).map fun m => { r with toMemberRow := m }

/-- The alias with another text in a column. -/
def AliasRow.withText? (r : AliasRow) (column s : String) : Option AliasRow :=
  match column with
  | "old_class" => some { r with oldName := s }
  | "new_class" => some { r with newName := s }
  | "deprecation_version" => some { r with dropped := s }
  | _ => none

/-- The argument with another text in a column. -/
def ArgumentRow.withText? (r : ArgumentRow) (column s : String) : Option ArgumentRow :=
  match column with
  | "name" => some { r with name := s }
  | "description" => some { r with description := s }
  | "types" => some { r with types := s }
  | "default_value" => some { r with default := some s }
  | "argumented_type" => some { r with ownerWord := s }
  | _ => none

/-- The deprecation with another text in a column. -/
def DeprecationRow.withText? (r : DeprecationRow) (column s : String) : Option DeprecationRow :=
  match column with
  | "description" => some { r with description := s }
  | "removal_version" => some { r with removal := some s }
  | "deprecatable_type" => some { r with ownerWord := s }
  | _ => none

/-- The element with another text in a column. -/
def ElementKind.withText? : (k : ElementKind) → k.Row → String → String → Option k.Row
  | .classes, r, column, s =>
    (r.toElementRow.withText? column s).map fun e => { r with toElementRow := e }
  | .interfaces, r, column, s => r.withText? column s
  | .classMethods, r, column, s =>
    (r.toMethodRow.withText? column s).map fun m => { r with toMethodRow := m }
  | .interfaceMethods, r, column, s => r.withText? column s
  | .classProperties, r, column, s => r.withText? column s
  | .functions, r, column, s => r.withText? column s
  | .aliases, r, column, s => r.withText? column s

namespace Change

/-- The table with the row under an id changed, and how many rows that were; fails if a rule on
the table would break. -/
def changeRow {α : Type} (t : Table α) (rules : List (Uniqueness α)) (id : Int)
    (f : α → Option α) : Change (Table α × Nat) := do
  match (t.get? id).bind f with
  | none => return (t, 0)
  | some row =>
    checkUnique t rules id row
    return (t.update id fun _ => row, 1)

/-- Writes a text into a cell of a table; the result is how many rows that changed. -/
def writeText (table column : String) (id : Int) (text : String) : Change Nat := do
  let s ← get
  match table with
  | "software" =>
    let (t, n) ← changeRow s.software softwareRules id (·.withText? column text)
    set { s with software := t }
    return n
  | "versions" =>
    let (t, n) ← changeRow s.versions versionRules id (·.withText? column text)
    set { s with versions := t }
    return n
  | "arguments" =>
    let (t, n) ← changeRow s.arguments argumentRules id (·.withText? column text)
    set { s with arguments := t }
    return n
  | "deprecations" =>
    let (t, n) ← changeRow s.deprecations deprecationRules id (·.withText? column text)
    set { s with deprecations := t }
    return n
  | _ =>
    match ElementKind.all.find? (·.tableName == table) with
    | none => return 0
    | some k =>
      let (t, n) ← changeRow (s.table k) k.rules id fun r => k.withText? r column text
      set (s.withTable k t)
      return n

end Change
end ApiCatalog
