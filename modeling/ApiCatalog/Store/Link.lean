import ApiCatalog.Name
import ApiCatalog.Store.Change
import ApiCatalog.Store.Entry

/-!
# Linking elements

Entries name the classes and interfaces that they refer to. A name stands for the element of that
qualified name in the same version, and for nothing if there is none; nothing refers to itself.
Linking an element replaces the links that it had.
-/

namespace ApiCatalog

namespace Store

/-- The class of a version under a name that may be written with separators in front. -/
def classNamed? (s : Store) (version : Int) (name : String) : Option (Record ClassRow) :=
  s.classes.find? fun r => r.version == version && r.name == absoluteName name

/-- The interface of a version under a name that may be written with separators in front. -/
def interfaceNamed? (s : Store) (version : Int) (name : String) : Option (Record ElementRow) :=
  s.interfaces.find? fun r => r.version == version && r.name == absoluteName name

/-- The ids of the interfaces of a version that a list names. -/
def interfacesNamed (s : Store) (version : Int) (names : List String) : List Int :=
  names.filterMap fun name => (s.interfaceNamed? version name).map Record.id

/-- The id of the class that a class extends. -/
def parentOf? (s : Store) (id version : Int) (e : ClassEntry) : Option Int :=
  if e.parent = "" then none
  else ((s.classNamed? version e.parent).map Record.id).filter (· != id)

end Store

namespace Change

/-- The class under `id` extends and implements what its entry says. -/
def linkClass (id version : Int) (e : ClassEntry) : Change Unit := do
  let s ← get
  let parent := s.parentOf? id version e
  set { s with
    classes := s.classes.update id fun row => { row with parent }
    classInterfaces := s.classInterfaces.keep (·.1 != id) }
  (s.interfacesNamed version e.implements).forM fun i => addClassInterface (id, i)

/-- The interface under `id` extends what its entry says. -/
def linkInterface (id version : Int) (e : InterfaceEntry) : Change Unit := do
  let s ← get
  let parents := (s.interfacesNamed version e.parents).filter (· != id)
  set { s with interfaceParents := s.interfaceParents.keep (·.1 != id) }
  parents.forM fun p => addInterfaceParent (id, p)

end Change
end ApiCatalog
