import ApiCatalog.Store.Links
import ApiCatalog.Store.Row
import ApiCatalog.Store.Table

/-!
# The store

The tables of the catalogue: software, versions, the seven tables of elements, the links between
classes and interfaces, and what elements own beside their rows, arguments and deprecations. The
tables of elements are reached by their kind.
-/

namespace ApiCatalog

/-- All that the catalogue keeps. -/
structure Store where
  software : Table Software := ∅
  versions : Table Version := ∅
  classes : Table ClassRow := ∅
  interfaces : Table ElementRow := ∅
  /-- From interfaces to those they extend. -/
  interfaceParents : Links := ∅
  /-- From classes to the interfaces they implement. -/
  classInterfaces : Links := ∅
  classMethods : Table ClassMethodRow := ∅
  interfaceMethods : Table MethodRow := ∅
  classProperties : Table MemberRow := ∅
  functions : Table FunctionRow := ∅
  arguments : Table ArgumentRow := ∅
  deprecations : Table DeprecationRow := ∅
  aliases : Table AliasRow := ∅
deriving DecidableEq, Repr, Inhabited

namespace Store

/-- The table of the elements of a kind. -/
def table (s : Store) : (k : ElementKind) → Table k.Row
  | .classes => s.classes
  | .interfaces => s.interfaces
  | .classMethods => s.classMethods
  | .interfaceMethods => s.interfaceMethods
  | .classProperties => s.classProperties
  | .functions => s.functions
  | .aliases => s.aliases

/-- The store with another table of the elements of a kind. -/
def withTable (s : Store) : (k : ElementKind) → Table k.Row → Store
  | .classes, t => { s with classes := t }
  | .interfaces, t => { s with interfaces := t }
  | .classMethods, t => { s with classMethods := t }
  | .interfaceMethods, t => { s with interfaceMethods := t }
  | .classProperties, t => { s with classProperties := t }
  | .functions, t => { s with functions := t }
  | .aliases, t => { s with aliases := t }

@[simp] theorem table_withTable_self (s : Store) (k : ElementKind) (t : Table k.Row) :
    (s.withTable k t).table k = t := by
  cases k <;> rfl

theorem table_withTable_of_ne (s : Store) {k l : ElementKind} (t : Table k.Row) (h : l ≠ k) :
    (s.withTable k t).table l = s.table l := by
  cases k <;> cases l <;> first | rfl | exact absurd rfl h

/-- There is an owner of the kind under the id. -/
def hasOwner (s : Store) : OwnerKind → Int → Bool
  | .versions, id => s.versions.has id
  | .classes, id => s.classes.has id
  | .interfaces, id => s.interfaces.has id

/-- The version that an element belongs to, itself or through its owner. -/
def versionOf? (s : Store) (o : Owner) : Option Int := do
  let row ← (s.table o.kind).get? o.id
  let owner := (o.kind.key row).owner
  match o.kind.ownerKind with
  | .versions => return owner
  | .classes => return (← s.classes.get? owner).version
  | .interfaces => return (← s.interfaces.get? owner).version

end Store
end ApiCatalog
