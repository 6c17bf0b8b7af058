import ApiCatalog.Store.Change
import ApiCatalog.Store.Entry

/-!
# Reconciling an entry

An entry is stored under its owner: the row of its natural key is refreshed if there is one and
made otherwise. Then the deprecation and the arguments of the row are brought in step with the
entry. One rule serves all kinds.
-/

namespace ApiCatalog.Change

/-! ## Deprecations and arguments -/

/-- The element has the deprecation that its docblock gives it: its last such tag, or none. -/
def syncDeprecation (o : Owner) (d : Docblock) : Change Unit := do
  let s ← get
  match d.lastNamed? "deprecated" with
  | none => set { s with deprecations := s.deprecations.keep fun r => !r.row.isOf o }
  | some tag =>
    match s.deprecations.find? (·.isOf o) with
    | some r =>
      let renew (row : DeprecationRow) : DeprecationRow :=
        { row with description := tag.description, removal := tag.version }
      set { s with deprecations := s.deprecations.update r.id renew }
    | none => addDeprecation ⟨tag.description, tag.version, o.id, o.kind.keyword⟩

/-- The element has the argument as it is declared and documented. -/
def syncArgument (o : Owner) (d : Docblock) (a : ArgumentEntry) : Change Unit := do
  let s ← get
  let types := TextList.write (argumentInfo a d).1
  let description := (argumentInfo a d).2
  match s.arguments.find? (fun r => r.isOf o && r.name == a.name) with
  | some r =>
    let renew (row : ArgumentRow) : ArgumentRow :=
      { row with description, types, default := a.default }
    set { s with arguments := s.arguments.update r.id renew }
  | none => addArgument ⟨a.name, description, types, a.default, o.id, o.kind.keyword⟩

/-- The element has the arguments that are declared, and no other ones. -/
def syncArguments (o : Owner) (arguments : List ArgumentEntry) (d : Docblock) : Change Unit := do
  arguments.forM (syncArgument o d)
  -- Arguments of the element that are no longer declared go.
  let isStale (row : ArgumentRow) := row.isOf o && !(arguments.map (·.name)).contains row.name
  modify fun s => { s with arguments := s.arguments.keep fun r => !isStale r.row }

/-! ## Elements -/

/-- Fails unless the owner of an entry is there. -/
def requireOwner (k : ElementKind) (e : k.Entry) (owner : Int) : Change Unit := do
  if !(← get).hasOwner k.ownerKind owner then
    throw (.noOwner k.title (k.entryName e) k.ownerKind.tableName owner)

/-- The row of an entry is as the entry says; the result is its id. -/
def syncRow (k : ElementKind) (e : k.Entry) (owner : Int) : Change Int := do
  let s ← get
  match (s.table k).find? (fun row => k.key row == k.entryKey e owner) with
  | some r =>
    set (s.withTable k ((s.table k).update r.id (k.refresh e)))
    return r.id
  | none => addElement k (k.fresh e owner)

/-- Stores an entry under its owner; the result is its record. -/
def reconcile (k : ElementKind) (e : k.Entry) (owner : Int) : Change (Record k.Row) := do
  requireOwner k e owner
  let id ← syncRow k e owner
  if k.takesDeprecation then syncDeprecation ⟨k, id⟩ (k.docblock e)
  if k.takesArguments then syncArguments ⟨k, id⟩ (k.arguments e) (k.docblock e)
  getElement k id

end ApiCatalog.Change
