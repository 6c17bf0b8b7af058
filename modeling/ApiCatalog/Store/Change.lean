import ApiCatalog.Error
import ApiCatalog.Store.Basic

/-!
# Changes of the store

A change reads and writes the store and may fail; what it wrote before it failed stays written,
unless it is made atomic. New rows are checked: they may not agree with another row in what is
unique, and what they refer to must be there.
-/

namespace ApiCatalog

/-- A change of the store with a result. -/
abbrev Change := ExceptT Error (StateM Store)

namespace Change

/-- What a change comes to on a store, and the store behind it. -/
def apply {α : Type} (c : Change α) (s : Store) : Except Error α × Store := Id.run (c.run.run s)

/-- The change, undone if it fails. -/
def atomic {α : Type} (c : Change α) : Change α := do
  let before ← get
  try c
  catch e =>
    set before
    throw e

end Change

/-! ## What is unique -/

/-- Neither name nor slug of a software occurs twice. -/
def softwareRules : List (Uniqueness Software) :=
  [⟨"software.name", fun a b => a.name == b.name⟩, ⟨"software.slug", fun a b => a.slug == b.slug⟩]

/-- A software has every version once. -/
def versionRules : List (Uniqueness Version) :=
  [⟨"versions.software_id, versions.version",
    fun a b => a.software == b.software && a.version == b.version⟩]

/-- An owner has every argument once. -/
def argumentRules : List (Uniqueness ArgumentRow) :=
  [⟨"arguments.argumented_type, arguments.argumented_id, arguments.name",
    fun a b => a.ownerWord == b.ownerWord && a.ownerId == b.ownerId && a.name == b.name⟩]

/-- An owner has one deprecation. -/
def deprecationRules : List (Uniqueness DeprecationRow) :=
  [⟨"deprecations.deprecatable_type, deprecations.deprecatable_id",
    fun a b => a.ownerWord == b.ownerWord && a.ownerId == b.ownerId⟩]

/-- The name of the rule on the natural keys of a kind. -/
def ElementKind.ruleName : ElementKind → String
  | .classes => "index 'idx_classes_natural_key'"
  | .interfaces => "index 'idx_interfaces_natural_key'"
  | .classMethods => "class_methods.parent_id, class_methods.name"
  | .interfaceMethods => "interface_methods.parent_id, interface_methods.name"
  | .classProperties => "class_properties.parent_id, class_properties.name"
  | .functions => "index 'idx_functions_natural_key'"
  | .aliases => "class_aliases.version_id, class_aliases.old_class, class_aliases.new_class"

/-- No two elements of a kind have the same natural key. -/
def ElementKind.rules (k : ElementKind) : List (Uniqueness k.Row) :=
  [⟨k.ruleName, fun a b => k.key a == k.key b⟩]

namespace Change

/-! ## New rows -/

/-- Fails if the row breaks one of the rules of a table. -/
def checkUnique {α : Type} (t : Table α) (rules : List (Uniqueness α)) (id : Int) (row : α) :
    Change Unit :=
  match t.broken? rules id row with
  | some rule => throw (.store (.duplicate rule))
  | none => return ()

/-- Fails if what a row refers to is not there. -/
def checkReference (isThere : Bool) : Change Unit :=
  if isThere then return () else throw (.store .missingReference)

/-- A new element; the result is its id. -/
def addElement (k : ElementKind) (row : k.Row) : Change Int := do
  let s ← get
  let t := s.table k
  checkUnique t k.rules t.nextId row
  checkReference (s.hasOwner k.ownerKind (k.key row).owner)
  set (s.withTable k (t.add row))
  return t.nextId

/-- A new argument. -/
def addArgument (row : ArgumentRow) : Change Unit := do
  let s ← get
  checkUnique s.arguments argumentRules s.arguments.nextId row
  set { s with arguments := s.arguments.add row }

/-- A new deprecation. -/
def addDeprecation (row : DeprecationRow) : Change Unit := do
  let s ← get
  checkUnique s.deprecations deprecationRules s.deprecations.nextId row
  set { s with deprecations := s.deprecations.add row }

/-- The link from a class to an interface. -/
def addClassInterface (link : Int × Int) : Change Unit := do
  let s ← get
  checkReference (s.classes.has link.1 && s.interfaces.has link.2)
  set { s with classInterfaces := s.classInterfaces.insert link }

/-- The link from an interface to one that it extends. -/
def addInterfaceParent (link : Int × Int) : Change Unit := do
  let s ← get
  checkReference (s.interfaces.has link.1 && s.interfaces.has link.2)
  set { s with interfaceParents := s.interfaceParents.insert link }

/-! ## Reading -/

/-- The element under an id. -/
def getElement (k : ElementKind) (id : Int) : Change (Record k.Row) := do
  match ((← get).table k).get? id with
  | some row => return ⟨id, row⟩
  | none => throw (.store .noRows)

end Change
end ApiCatalog
