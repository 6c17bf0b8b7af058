import ApiCatalog.Store.Link
import ApiCatalog.Store.Reconcile

/-!
# Importing a document

All elements of a document are stored in a version. Classes and interfaces come first, so that
every name they mention can be resolved when they are linked; their members and the functions and
aliases follow. An element that is declared more than once is stored as its last entry says.
-/

namespace ApiCatalog

/-- How many entries of each kind were stored. -/
structure ImportCounts where
  classes : Nat
  interfaces : Nat
  classMethods : Nat
  classProperties : Nat
  interfaceMethods : Nat
  functions : Nat
  aliases : Nat
deriving DecidableEq, Repr, Inhabited

/-- How many entries of each kind a document has. -/
def Document.counts (d : Document) : ImportCounts where
  classes := d.classes.length
  interfaces := d.interfaces.length
  classMethods := (d.classes.flatMap (·.methods)).length
  classProperties := (d.classes.flatMap (·.properties)).length
  interfaceMethods := (d.interfaces.flatMap (·.methods)).length
  functions := d.functions.length
  aliases := d.aliases.length

/-- All of some numbers together. -/
def total : List Nat → Nat
  | [] => 0
  | n :: ns => n + total ns

namespace Change

/-- Stores entries of one kind under one owner. -/
def reconcileAll (k : ElementKind) (entries : List k.Entry) (owner : Int) :
    Change (List (Record k.Row × k.Entry)) :=
  entries.mapM fun e => return (← reconcile k e owner, e)

/-- Stores a document in a version; the result counts what was stored. -/
def importInto (version : Int) (d : Document) : Change ImportCounts := do
  let classes ← reconcileAll .classes d.classes version
  let interfaces ← reconcileAll .interfaces d.interfaces version
  -- A name may stand for an element that is declared behind the one that mentions it.
  classes.forM fun (r, e) => linkClass r.id r.row.version e
  interfaces.forM fun (r, e) => linkInterface r.id r.row.version e
  let members ← classes.mapM fun (r, e) => do
    let methods ← reconcileAll .classMethods e.methods r.id
    let properties ← reconcileAll .classProperties e.properties r.id
    return (methods.length, properties.length)
  let interfaceMethods ← interfaces.mapM fun (r, e) =>
    return (← reconcileAll .interfaceMethods e.methods r.id).length
  let functions ← reconcileAll .functions d.functions version
  let aliases ← reconcileAll .aliases d.aliases version
  return {
    classes := classes.length
    interfaces := interfaces.length
    classMethods := total (members.map Prod.fst)
    classProperties := total (members.map Prod.snd)
    interfaceMethods := total interfaceMethods
    functions := functions.length
    aliases := aliases.length }

/-- Stores a document in a version, or changes nothing. -/
def importDocument (version : Int) (d : Document) : Change ImportCounts :=
  atomic (importInto version d)

end Change
end ApiCatalog
