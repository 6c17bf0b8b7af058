import ApiCatalog.Store.Change

/-!
# Deleting a version

A version goes with all that belongs to it: its elements, their members, their links, and what
any of these own. A class of another version that extends a class that goes extends nothing.
-/

namespace ApiCatalog

namespace Store

/-- The store without the elements of a kind that satisfy `p`. If the kind may be deprecated their
deprecations go with them, and if it takes arguments those do. -/
def dropElements (s : Store) (k : ElementKind) (p : k.Row → Bool) : Store :=
  let gone := (s.table k).idsWhere p
  let isOwned (word : String) (id : Int) := word == k.keyword && gone.contains id
  let s := s.withTable k ((s.table k).keep fun r => !p r.row)
  { s with
    deprecations := s.deprecations.keep fun r =>
      !(k.takesDeprecation && isOwned r.row.ownerWord r.row.ownerId)
    arguments := s.arguments.keep fun r =>
      !(k.takesArguments && isOwned r.row.ownerWord r.row.ownerId) }

/-- The store without the links of the classes and interfaces given, which go. -/
def dropLinks (s : Store) (classes interfaces : List Int) : Store :=
  { s with
    classes := s.classes.mapRows fun _ row =>
      { row with parent := row.parent.filter fun id => !classes.contains id }
    classInterfaces := s.classInterfaces.keep fun l =>
      !classes.contains l.1 && !interfaces.contains l.2
    interfaceParents := s.interfaceParents.keep fun l =>
      !interfaces.contains l.1 && !interfaces.contains l.2 }

/-- The store without a version and all that belongs to it. -/
def deleteVersion (s : Store) (version : Int) : Store :=
  let classes := s.classes.idsWhere (·.version == version)
  let interfaces := s.interfaces.idsWhere (·.version == version)
  -- Members go before their owners, as each takes what it owns with it.
  let s := s.dropElements .classMethods fun r => classes.contains r.owner
  let s := s.dropElements .classProperties fun r => classes.contains r.owner
  let s := s.dropElements .interfaceMethods fun r => interfaces.contains r.owner
  let s := s.dropElements .classes fun r => r.version == version
  let s := s.dropElements .interfaces fun r => r.version == version
  let s := s.dropElements .functions fun r => r.version == version
  let s := s.dropElements .aliases fun r => r.version == version
  let s := s.dropLinks classes interfaces
  { s with versions := s.versions.keep (·.id != version) }

end Store

namespace Change

/-- Deletes a version with all that belongs to it; the result is whether a version went. -/
def deleteVersion (version : Int) : Change Bool := do
  let s ← get
  let rest := s.deleteVersion version
  set rest
  return rest.versions.records.length < s.versions.records.length

end Change
end ApiCatalog
