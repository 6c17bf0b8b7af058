import ApiCatalog.Dictionary
import ApiCatalog.Store.Basic
import ApiCatalog.Text.Blank
import ApiCatalog.Text.Split

/-!
# Browsing a version

The numbers on a version, its namespaces level by level, and the classes and functions of a
namespace. Elements outside every namespace are listed on their own. Namespaces are in ascending
order, elements in that of their short names.
-/

namespace ApiCatalog

/-- The numbers on a version and its outermost namespaces. -/
structure Dashboard where
  classes : Nat
  interfaces : Nat
  functions : Nat
  deprecations : Nat
  namespaces : List String
deriving DecidableEq, Repr, Inhabited

/-- The texts in ascending order, each once. -/
def ascending (texts : List String) : List String :=
  (Dictionary.ofList (texts.map fun t => (t, ()))).keys

/-- A namespace without separators at its ends. -/
def bareNamespace (ns : String) : String := .ofList (Text.dropAround '\\' ns.toList)

/-- The text in front of the first separator. -/
def firstSegment (ns : List Char) : List Char := ns.takeWhile (· != '\\')

namespace Store

/-- The namespaces in use in a version. -/
def namespaces (s : Store) (version : Int) : List String :=
  let ofRow (r : ElementRow) := if r.version = version then r.ns else none
  s.classes.rows.filterMap (ofRow ·.toElementRow) ++ s.interfaces.rows.filterMap ofRow ++
    s.functions.rows.filterMap (ofRow ·.toElementRow)

/-- The first segments of the namespaces of a version. -/
def rootNamespaces (s : Store) (version : Int) : List String :=
  ascending <| ((s.namespaces version).map fun ns => .ofList (firstSegment ns.toList)).filter (· != "")

/-- The namespaces one segment below `ns` that lead to a namespace of the version. -/
def childNamespaces (s : Store) (version : Int) (ns : String) : List String :=
  let above := (bareNamespace ns).toList ++ ['\\']
  let child? (whole : String) : Option String := do
    let segment := firstSegment (← Text.dropStart? above whole.toList)
    if segment.isEmpty then none else some (.ofList (above ++ segment))
  ascending ((s.namespaces version).filterMap child?)

/-- How many deprecations lie in a version. -/
def countDeprecations (s : Store) (version : Int) : Nat :=
  s.deprecations.count fun d => d.owner?.bind s.versionOf? == some version

/-- The numbers on a version. -/
def dashboard (s : Store) (version : Int) : Dashboard where
  classes := s.classes.count (·.version == version)
  interfaces := s.interfaces.count (·.version == version)
  functions := s.functions.count (·.version == version)
  deprecations := s.countDeprecations version
  namespaces := s.rootNamespaces version

/-- The classes of a version in a namespace, or outside every namespace, by short name. -/
def classesIn (s : Store) (version : Int) (ns : Option String) : List (Record ClassRow) :=
  let found := s.classes.records.filter fun r =>
    r.row.version == version && r.row.ns == ns.map bareNamespace
  found.mergeSort fun a b => a.row.shortName ≤ b.row.shortName

/-- The functions of a version in a namespace, or outside every namespace, by short name. -/
def functionsIn (s : Store) (version : Int) (ns : Option String) : List (Record FunctionRow) :=
  let found := s.functions.records.filter fun r =>
    r.row.version == version && r.row.ns == ns.map bareNamespace
  found.mergeSort fun a b => a.row.shortName ≤ b.row.shortName

/-- The names of interfaces, in order. -/
def interfaceNames (s : Store) (ids : List Int) : List String :=
  (ids.filterMap fun id => (s.interfaces.get? id).map (·.name)).mergeSort (· ≤ ·)

/-- The names of the interfaces that an interface extends. -/
def parentNames (s : Store) (id : Int) : List String :=
  s.interfaceNames (s.interfaceParents.targets id)

/-- The names of the interfaces that extend an interface. -/
def childNames (s : Store) (id : Int) : List String :=
  s.interfaceNames (s.interfaceParents.sources id)

end Store
end ApiCatalog
