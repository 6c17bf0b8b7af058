import ApiCatalog.Proofs.Store.Apply
import ApiCatalog.Proofs.Store.Write
import ApiCatalog.Store.Reconcile

/-!
# Putting entries into the store

Reconciling an entry whose owner is there cannot fail, so the store behind it can be written down:
`Store.put`. It writes one row, and brings the deprecation and the arguments of that row in step
with the entry; `reconcile_apply` says that this is what `Change.reconcile` does, and
`reconcile_apply_of_missing` that nothing happens where the owner is missing.

All three kinds of rows are written through `Write`, so the laws of writing give the laws of
putting.
-/

namespace ApiCatalog

/-! ## Keys -/

/-- What an argument or a deprecation refers to its element by. -/
def Owner.key (o : Owner) : String × Int := (o.kind.keyword, o.id)

/-- The reference of a deprecation to its element. -/
def DeprecationRow.key (r : DeprecationRow) : String × Int := (r.ownerWord, r.ownerId)

/-- The reference of an argument to its element, and its name. -/
def ArgumentRow.key (r : ArgumentRow) : (String × Int) × String :=
  ((r.ownerWord, r.ownerId), r.name)

/-- Every kind has a word of its own. -/
theorem ElementKind.keyword_inj {k l : ElementKind} (h : k.keyword = l.keyword) : k = l := by
  cases k <;> cases l <;> first | rfl | exact absurd h (by decide)

theorem Owner.key_inj {o o' : Owner} (h : o.key = o'.key) : o = o' := by
  obtain ⟨hword, hid⟩ := Prod.mk.injEq .. ▸ h
  cases o
  cases o'
  cases ElementKind.keyword_inj hword
  cases hid
  rfl

/-- A deprecation is of an owner by its key. -/
theorem DeprecationRow.isOf_iff {r : DeprecationRow} {o : Owner} :
    r.isOf o = true ↔ r.key = o.key := by
  simp [DeprecationRow.isOf, DeprecationRow.key, Owner.key]

theorem ArgumentRow.isOf_iff {r : ArgumentRow} {o : Owner} : r.isOf o = true ↔ r.key.1 = o.key := by
  simp [ArgumentRow.isOf, ArgumentRow.key, Owner.key]

/-! ## Writes -/

namespace ElementKind

variable (k : ElementKind) (e : k.Entry)

/-- A refreshed row has the natural key that it had. -/
theorem key_refresh {owner : Int} {row : k.Row} (h : k.key row = k.entryKey e owner) :
    k.key (k.refresh e row) = k.entryKey e owner := by
  cases k with
  | classes | interfaces | functions | aliases => exact h
  | classMethods | interfaceMethods | classProperties =>
    have howner : row.owner = owner := congrArg NaturalKey.owner h
    rw [← howner]
    rfl

/-- Refreshing a row twice is refreshing it once. -/
theorem refresh_refresh (row : k.Row) : k.refresh e (k.refresh e row) = k.refresh e row := by
  cases k <;> rfl

/-- A fresh row is as it is when refreshed. -/
theorem refresh_fresh (owner : Int) : k.refresh e (k.fresh e owner) = k.fresh e owner := by
  cases k <;> rfl

/-- How the row of an entry is written. -/
def write (owner : Int) : Write k.key where
  target := k.entryKey e owner
  renew := k.refresh e
  fresh := k.fresh e owner
  key_renew := fun _ => k.key_refresh e
  key_fresh := rfl
  renew_renew := k.refresh_refresh e
  renew_fresh := k.refresh_fresh e owner

end ElementKind

/-- How the deprecation of an element is written. -/
def deprecationWrite (o : Owner) (tag : Tag) : Write DeprecationRow.key where
  target := o.key
  renew row := { row with description := tag.description, removal := tag.version }
  fresh := ⟨tag.description, tag.version, o.id, o.kind.keyword⟩
  key_renew _ h := h
  key_fresh := rfl
  renew_renew _ := rfl
  renew_fresh := rfl

/-- How an argument of an element is written. -/
def argumentWrite (o : Owner) (d : Docblock) (a : ArgumentEntry) : Write ArgumentRow.key where
  target := (o.key, a.name)
  renew row := { row with
    description := (argumentInfo a d).2
    types := TextList.write (argumentInfo a d).1
    default := a.default }
  fresh :=
    ⟨a.name, (argumentInfo a d).2, TextList.write (argumentInfo a d).1, a.default, o.id,
      o.kind.keyword⟩
  key_renew _ h := h
  key_fresh := rfl
  renew_renew _ := rfl
  renew_fresh := rfl

/-- The deprecations with that of an element in step with its docblock. -/
def withDeprecation (o : Owner) (d : Docblock) (t : Table DeprecationRow) : Table DeprecationRow :=
  match d.lastNamed? "deprecated" with
  | none => t.keep fun r => !r.row.isOf o
  | some tag => t.write (deprecationWrite o tag)

/-- The arguments with those of an element in step with its entry. -/
def withArguments (o : Owner) (arguments : List ArgumentEntry) (d : Docblock)
    (t : Table ArgumentRow) : Table ArgumentRow :=
  (t.writeAll (arguments.map (argumentWrite o d))).keep fun r =>
    !(r.row.isOf o && !(arguments.map (·.name)).contains r.row.name)

/-- Putting leaves a deprecation of the element or one that was there before. -/
theorem mem_withDeprecation {t : Table DeprecationRow} {o : Owner} {d : Docblock}
    {r : Record DeprecationRow} (h : r ∈ (withDeprecation o d t).records) :
    r.row.key = o.key ∨ r ∈ t.records := by
  unfold withDeprecation at h
  split at h
  · exact .inr (Table.mem_keep.1 h).1
  · rcases Table.mem_write h with ⟨-, hkey⟩ | ⟨-, hmem⟩
    · exact .inl hkey
    · exact .inr hmem

/-- Putting leaves an argument of the element or one that was there before. -/
theorem mem_withArguments {t : Table ArgumentRow} {o : Owner} {arguments : List ArgumentEntry}
    {d : Docblock} {r : Record ArgumentRow} (h : r ∈ (withArguments o arguments d t).records) :
    r.row.key.1 = o.key ∨ r ∈ t.records := by
  have hall := (Table.mem_keep.1 h).1
  clear h
  induction arguments generalizing t with
  | nil => exact .inr hall
  | cons a arguments ih =>
    rcases ih hall with hkey | hmem
    · exact .inl hkey
    · rcases Table.mem_write hmem with ⟨-, hkey⟩ | ⟨-, hmem⟩
      · exact .inl (congrArg Prod.fst hkey)
      · exact .inr hmem

/-! ## Putting -/

/-- An entry with the id of the owner that it is stored under. -/
structure Put where
  kind : ElementKind
  entry : kind.Entry
  owner : Int

namespace Put

/-- How the row of the entry is written. -/
def write (p : Put) : Write p.kind.key := p.kind.write p.entry p.owner

/-- The natural key of the entry under its owner. -/
def key (p : Put) : NaturalKey := p.kind.entryKey p.entry p.owner

/-- The docblock of the entry. -/
def docblock (p : Put) : Docblock := p.kind.docblock p.entry

/-- The arguments of the entry. -/
def arguments (p : Put) : List ArgumentEntry := p.kind.arguments p.entry

end Put

namespace Store

/-- The id of the row of an entry, or the one that it would get. -/
def idOf (s : Store) (p : Put) : Int := (s.table p.kind).idAt p.kind.key p.key

/-- The store with an entry stored. -/
def put (s : Store) (p : Put) : Store :=
  { s.withTable p.kind ((s.table p.kind).write p.write) with
    deprecations :=
      if p.kind.takesDeprecation then withDeprecation ⟨p.kind, s.idOf p⟩ p.docblock s.deprecations
      else s.deprecations
    arguments :=
      if p.kind.takesArguments then
        withArguments ⟨p.kind, s.idOf p⟩ p.arguments p.docblock s.arguments
      else s.arguments }

/-- The store with entries stored, one after the other. -/
def putAll (s : Store) (ps : List Put) : Store := ps.foldl put s

/-- Stores with the same tables and links are equal. -/
theorem ext_table {s s' : Store} (htable : ∀ k, s.table k = s'.table k)
    (hdeprecations : s.deprecations = s'.deprecations) (harguments : s.arguments = s'.arguments)
    (hsoftware : s.software = s'.software) (hversions : s.versions = s'.versions)
    (hparents : s.interfaceParents = s'.interfaceParents)
    (hinterfaces : s.classInterfaces = s'.classInterfaces) : s = s' := by
  have hclasses : s.classes = s'.classes := htable .classes
  have hinterfaceTable : s.interfaces = s'.interfaces := htable .interfaces
  have hclassMethods : s.classMethods = s'.classMethods := htable .classMethods
  have hinterfaceMethods : s.interfaceMethods = s'.interfaceMethods := htable .interfaceMethods
  have hproperties : s.classProperties = s'.classProperties := htable .classProperties
  have hfunctions : s.functions = s'.functions := htable .functions
  have haliases : s.aliases = s'.aliases := htable .aliases
  cases s
  cases s'
  simp only at *
  subst_vars
  rfl

section
variable (s : Store) (p : Put)

/-- Putting an entry writes into the table of its kind. -/
@[simp] theorem put_table : (s.put p).table p.kind = (s.table p.kind).write p.write := by
  obtain ⟨k, e, owner⟩ := p
  cases k <;> rfl

/-- The other tables of elements stay. -/
theorem put_table_of_ne {k : ElementKind} (h : k ≠ p.kind) : (s.put p).table k = s.table k := by
  rw [← s.table_withTable_of_ne ((s.table p.kind).write p.write) h]
  cases k <;> rfl

/-- Putting an entry leaves the software alone. -/
@[simp] theorem put_software : (s.put p).software = s.software := by
  obtain ⟨k, e, owner⟩ := p
  cases k <;> rfl

/-- It leaves the versions alone, too. -/
@[simp] theorem put_versions : (s.put p).versions = s.versions := by
  obtain ⟨k, e, owner⟩ := p
  cases k <;> rfl

/-- Links between interfaces are not made by it. -/
@[simp] theorem put_interfaceParents : (s.put p).interfaceParents = s.interfaceParents := by
  obtain ⟨k, e, owner⟩ := p
  cases k <;> rfl

@[simp] theorem put_classInterfaces : (s.put p).classInterfaces = s.classInterfaces := by
  obtain ⟨k, e, owner⟩ := p
  cases k <;> rfl

/-- An entry that takes a deprecation gets that of its docblock, or loses the one it had. -/
theorem put_deprecations : (s.put p).deprecations =
    if p.kind.takesDeprecation then withDeprecation ⟨p.kind, s.idOf p⟩ p.docblock s.deprecations
    else s.deprecations := rfl

/-- An entry that takes arguments gets those that it declares, and no others. -/
theorem put_arguments : (s.put p).arguments =
    if p.kind.takesArguments then
      withArguments ⟨p.kind, s.idOf p⟩ p.arguments p.docblock s.arguments
    else s.arguments := rfl

/-- No element goes when an entry is put. -/
theorem has_put {k : ElementKind} {id : Int} (h : (s.table k).has id = true) :
    ((s.put p).table k).has id = true := by
  by_cases hkind : k = p.kind
  · subst hkind
    rw [put_table]
    exact Table.has_write h
  · rw [put_table_of_ne s p hkind]
    exact h

/-- An owner that is there stays there. -/
theorem hasOwner_put {k : OwnerKind} {id : Int} (h : s.hasOwner k id = true) :
    (s.put p).hasOwner k id = true := by
  cases k with
  | versions =>
    show (s.put p).versions.has id = true
    rw [put_versions]
    exact h
  | classes => exact s.has_put p (k := .classes) h
  | interfaces => exact s.has_put p (k := .interfaces) h

end

theorem hasOwner_putAll {s : Store} {k : OwnerKind} {id : Int} (ps : List Put)
    (h : s.hasOwner k id = true) : (s.putAll ps).hasOwner k id = true := by
  induction ps generalizing s with
  | nil => exact h
  | cons p ps ih => exact ih (s.hasOwner_put p h)

/-- Entries are put one after the other. -/
theorem putAll_append (s : Store) (ps qs : List Put) :
    s.putAll (ps ++ qs) = (s.putAll ps).putAll qs :=
  List.foldl_append

end Store

/-! ## Stored entries -/

/-- The row of the entry is there, under the id. -/
def Put.Stored (p : Put) (s : Store) (id : Int) : Prop :=
  ∃ row, (s.table p.kind).at? p.kind.key p.key = some ⟨id, row⟩

namespace Put.Stored

variable {p : Put} {s : Store} {id : Int}

/-- A stored entry has one id. -/
theorem idOf_eq (h : p.Stored s id) : s.idOf p = id := by
  obtain ⟨row, hrow⟩ := h
  exact Table.idAt_of_at? hrow

/-- An entry that has just been put is stored. -/
theorem put_self : p.Stored (s.put p) (s.idOf p) := by
  obtain ⟨row, hrow, -⟩ := Table.at?_write_self (t := s.table p.kind) (w := p.write)
  exact ⟨row, by rw [Store.put_table]; exact hrow⟩

/-- An entry keeps its id, whatever is put. -/
theorem put (h : p.Stored s id) (q : Put) : p.Stored (s.put q) id := by
  obtain ⟨row, hrow⟩ := h
  obtain ⟨k, e, owner⟩ := p
  by_cases hkind : k = q.kind
  · subst hkind
    obtain ⟨row', hrow'⟩ := Table.idAt_write (w := q.write) hrow
    exact ⟨row', by rw [Store.put_table]; exact hrow'⟩
  · exact ⟨row, by rw [Store.put_table_of_ne s q hkind]; exact hrow⟩

theorem putAll (h : p.Stored s id) (ps : List Put) : p.Stored (s.putAll ps) id := by
  induction ps generalizing s with
  | nil => exact h
  | cons q ps ih => exact ih (h.put q)

/-- A class or interface that is stored may own members. -/
theorem hasOwner {k : OwnerKind} (h : p.Stored s id)
    (hk : k = .classes ∧ p.kind = .classes ∨ k = .interfaces ∧ p.kind = .interfaces) :
    s.hasOwner k id = true := by
  obtain ⟨row, hrow⟩ := h
  obtain ⟨l, e, owner⟩ := p
  rcases hk with ⟨rfl, rfl⟩ | ⟨rfl, rfl⟩
  · exact Table.has_iff.2 ⟨_, Table.mem_of_at? hrow, rfl⟩
  · exact Table.has_iff.2 ⟨_, Table.mem_of_at? hrow, rfl⟩

end Put.Stored
end ApiCatalog
