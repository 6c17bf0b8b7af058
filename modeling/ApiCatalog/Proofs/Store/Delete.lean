import ApiCatalog.Proofs.Store.Reachable
import ApiCatalog.Proofs.Store.Version

/-!
# What deleting a version leaves

Deleting a version drops the elements of each kind that lie in it, kind after kind, and with them
what they own; then links, and then the version. Each kind is dropped once, and what is dropped is
decided by the store as it was at the start. So behind the deletion every table is the old one
without some rows, and the lemmas `deleteVersion_*` say which: an element goes if its owner is the
version or lies in it (`Store.goesWith`), a deprecation or an argument if the element that it refers
to lies in the version.
-/

namespace ApiCatalog

namespace Table

variable {α : Type} {t : Table α}

theorem keep_congr {p q : Record α → Bool} (h : ∀ r ∈ t.records, p r = q r) :
    t.keep p = t.keep q :=
  ext (List.filter_congr h) rfl

theorem keep_keep (p q : Record α → Bool) : (t.keep p).keep q = t.keep fun r => p r && q r := by
  refine ext ?_ rfl
  show (t.records.filter p).filter q = t.records.filter fun r => p r && q r
  rw [List.filter_filter]
  exact List.filter_congr fun r _ => Bool.and_comm ..

/-- The ids of rows with a property. -/
theorem mem_idsWhere {p : α → Bool} {id : Int} :
    id ∈ t.idsWhere p ↔ ∃ r ∈ t.records, r.id = id ∧ p r.row = true := by
  unfold idsWhere
  rw [List.mem_map]
  constructor
  · rintro ⟨r, hr, rfl⟩
    obtain ⟨hmem, hp⟩ := List.mem_filter.1 hr
    exact ⟨r, hmem, rfl, hp⟩
  · rintro ⟨r, hr, rfl, hp⟩
    exact ⟨r, List.mem_filter.2 ⟨hr, hp⟩, rfl⟩

end Table

namespace Store

/-! ## Dropping kind after kind -/

/-- The store without the elements of some kinds that satisfy `p`, kind after kind. -/
def dropAll (s : Store) (p : (k : ElementKind) → k.Row → Bool) (ks : List ElementKind) : Store :=
  ks.foldl (fun s k => s.dropElements k (p k)) s

section
variable {s : Store} {p : (k : ElementKind) → k.Row → Bool} {ks : List ElementKind}

/-- A kind that is not dropped keeps its rows. -/
theorem dropAll_table_of_not_mem {k : ElementKind} (h : k ∉ ks) :
    (s.dropAll p ks).table k = s.table k := by
  induction ks generalizing s with
  | nil => rfl
  | cons l ks ih =>
    rw [List.mem_cons, not_or] at h
    have hrest := ih (s := s.dropElements l (p l)) h.2
    exact hrest.trans (dropElements_table_of_ne s l (p l) h.1)

/-- A kind that is dropped loses the rows that are picked. -/
theorem dropAll_table {k : ElementKind} (hks : ks.Nodup) (h : k ∈ ks) :
    (s.dropAll p ks).table k = (s.table k).keep fun r => !p k r.row := by
  induction ks generalizing s with
  | nil => cases h
  | cons l ks ih =>
    obtain ⟨hl, hrest⟩ := List.nodup_cons.1 hks
    by_cases hkind : k = l
    · subst hkind
      -- The rest of the kinds are other ones.
      exact (dropAll_table_of_not_mem hl).trans (dropElements_table s k (p k))
    · have hmem : k ∈ ks := (List.mem_cons.1 h).resolve_left hkind
      refine (ih (s := s.dropElements l (p l)) hrest hmem).trans ?_
      rw [dropElements_table_of_ne s l (p l) hkind]

/-- What refers to elements goes with them: of the rows of such a table those stay that refer to
none of the elements dropped of the kinds that take such references. -/
theorem dropAll_references {α : Type} (rows : Store → Table α) (reference : α → String × Int)
    (takes : ElementKind → Bool)
    (hrows : ∀ (s : Store) k p, rows (s.dropElements k p) = (rows s).keep fun r =>
      !(takes k && ((reference r.row).1 == k.keyword &&
        ((s.table k).idsWhere p).contains (reference r.row).2)))
    (hks : ks.Nodup) :
    rows (s.dropAll p ks) = (rows s).keep fun r => ks.all fun k =>
      !(takes k && ((reference r.row).1 == k.keyword &&
        ((s.table k).idsWhere (p k)).contains (reference r.row).2)) := by
  induction ks generalizing s with
  | nil => exact (Table.keep_eq_self fun _ _ => rfl).symm
  | cons l ks ih =>
    obtain ⟨hl, hrest⟩ := List.nodup_cons.1 hks
    refine (ih (s := s.dropElements l (p l)) hrest).trans ?_
    rw [hrows, Table.keep_keep]
    refine Table.keep_congr fun r _ => ?_
    rw [List.all_cons]
    congr 1
    -- The tables of the kinds to come are as they were.
    rw [Bool.eq_iff_iff, List.all_eq_true, List.all_eq_true]
    refine forall₂_congr fun k hk => ?_
    have hkind : k ≠ l := fun hkind => hl (hkind ▸ hk)
    rw [dropElements_table_of_ne s l (p l) hkind]

end

/-- Dropping elements leaves software, versions and links alone. -/
theorem dropAll_rest (s : Store) (p : (k : ElementKind) → k.Row → Bool) (ks : List ElementKind) :
    (s.dropAll p ks).software = s.software ∧ (s.dropAll p ks).versions = s.versions ∧
      (s.dropAll p ks).classInterfaces = s.classInterfaces ∧
        (s.dropAll p ks).interfaceParents = s.interfaceParents := by
  induction ks generalizing s with
  | nil => exact ⟨rfl, rfl, rfl, rfl⟩
  | cons k ks ih =>
    have hrest := ih (s.dropElements k (p k))
    cases k <;> exact hrest

/-! ## The order of a deletion -/

/-- An element with the row goes with the version: its owner is the version or lies in it. -/
def goesWith (s : Store) (version : Int) (k : ElementKind) (row : k.Row) : Bool :=
  s.ownerVersion? k.ownerKind (k.key row).owner == some version

/-- The kinds in the order in which their elements are dropped. -/
def deletionOrder : List ElementKind :=
  [.classMethods, .classProperties, .interfaceMethods, .classes, .interfaces, .functions, .aliases]

theorem nodup_deletionOrder : deletionOrder.Nodup := by decide

/-- Every kind has its turn. -/
theorem mem_deletionOrder (k : ElementKind) : k ∈ deletionOrder := by cases k <;> decide

variable {s : Store} {version : Int}

theorem mem_idsWhere_goesWith {k : ElementKind} {id : Int} :
    id ∈ (s.table k).idsWhere (s.goesWith version k) ↔ s.versionOf? ⟨k, id⟩ = some version := by
  rw [Table.mem_idsWhere, versionOf?_eq_some_iff]
  unfold goesWith
  simp only [beq_iff_eq]

/-- What goes with a version is what lies in it. -/
theorem goesWith_of_mem {k : ElementKind} {r : Record k.Row} (hr : r ∈ (s.table k).records) :
    s.goesWith version k r.row = (s.versionOf? ⟨k, r.id⟩ == some version) := by
  rw [versionOf?_of_mem hr]
  rfl

/-- The elements of a version are the owners of the members that go with it. -/
theorem contains_ownerIds {o : OwnerKind} {k : ElementKind} (h : o.element? = some k) (s : Store)
    (version id : Int) :
    ((s.table k).idsWhere fun row => (k.key row).owner == version).contains id =
      (s.ownerVersion? o id == some version) := by
  rw [Bool.eq_iff_iff, List.contains_iff_mem, beq_iff_eq, Table.mem_idsWhere,
    ownerVersion?_eq_some_iff h]
  refine exists_congr fun r => and_congr_right fun _ => and_congr_right fun _ => ?_
  exact beq_iff_eq

theorem contains_classIds (s : Store) (version id : Int) :
    (s.classes.idsWhere (·.version == version)).contains id =
      (s.ownerVersion? .classes id == some version) :=
  contains_ownerIds (o := .classes) (k := .classes) rfl s version id

theorem contains_interfaceIds (s : Store) (version id : Int) :
    (s.interfaces.idsWhere (·.version == version)).contains id =
      (s.ownerVersion? .interfaces id == some version) :=
  contains_ownerIds (o := .interfaces) (k := .interfaces) rfl s version id

/-- A deletion drops what goes with the version, kind after kind, and then links and the version. -/
theorem deleteVersion_eq (s : Store) (version : Int) :
    s.deleteVersion version =
      let rest := (s.dropAll (s.goesWith version) deletionOrder).dropLinks
        (s.classes.idsWhere (·.version == version)) (s.interfaces.idsWhere (·.version == version))
      { rest with versions := rest.versions.keep (·.id != version) } := by
  have hmethods : (fun r : ClassMethodRow =>
      (s.classes.idsWhere (·.version == version)).contains r.owner) =
        s.goesWith version .classMethods :=
    funext fun r => contains_classIds s version r.owner
  have hproperties : (fun r : MemberRow =>
      (s.classes.idsWhere (·.version == version)).contains r.owner) =
        s.goesWith version .classProperties :=
    funext fun r => contains_classIds s version r.owner
  have hinterfaceMethods : (fun r : MethodRow =>
      (s.interfaces.idsWhere (·.version == version)).contains r.owner) =
        s.goesWith version .interfaceMethods :=
    funext fun r => contains_interfaceIds s version r.owner
  unfold deleteVersion dropAll deletionOrder
  simp only [List.foldl_cons, List.foldl_nil]
  rw [hmethods, hproperties, hinterfaceMethods]
  rfl

/-! ## Table by table -/

/-- Rows other than classes stay as they are or go. -/
theorem deleteVersion_table {k : ElementKind} (hk : k ≠ .classes) :
    (s.deleteVersion version).table k = (s.table k).keep fun r => !s.goesWith version k r.row := by
  rw [← dropAll_table nodup_deletionOrder (mem_deletionOrder k), deleteVersion_eq]
  generalize s.dropAll (s.goesWith version) deletionOrder = rest
  cases k with
  | classes => exact absurd rfl hk
  | interfaces | classMethods | interfaceMethods | classProperties | functions | aliases => rfl

/-- Classes that stay lose a parent that goes. -/
theorem deleteVersion_classes :
    (s.deleteVersion version).classes =
      ((s.table .classes).keep fun r => !s.goesWith version .classes r.row).mapRows fun _ row =>
        row.extending (row.parent.filter fun id =>
          !(s.classes.idsWhere (·.version == version)).contains id) := by
  rw [← dropAll_table nodup_deletionOrder (mem_deletionOrder .classes), deleteVersion_eq]
  generalize s.dropAll (s.goesWith version) deletionOrder = rest
  rfl

/-- Those that stay are those of other versions. -/
theorem mem_deleteVersion_table {k : ElementKind} (hk : k ≠ .classes) {r : Record k.Row} :
    r ∈ ((s.deleteVersion version).table k).records ↔
      r ∈ (s.table k).records ∧ s.versionOf? ⟨k, r.id⟩ ≠ some version := by
  rw [deleteVersion_table hk, Table.mem_keep]
  refine and_congr_right fun hr => ?_
  rw [goesWith_of_mem hr, Bool.not_eq_true', beq_eq_false_iff_ne]

/-- A class that stays loses a parent that goes. -/
theorem mem_deleteVersion_classes {r : Record ClassRow} :
    r ∈ (s.deleteVersion version).classes.records ↔
      ∃ q ∈ s.classes.records, s.versionOf? ⟨.classes, q.id⟩ ≠ some version ∧
        ⟨q.id, q.row.extending (q.row.parent.filter fun id =>
          !(s.classes.idsWhere (·.version == version)).contains id)⟩ = r := by
  rw [deleteVersion_classes, Table.mem_mapRows]
  constructor
  · rintro ⟨q, hq, hrow⟩
    obtain ⟨hmem, hstays⟩ := Table.mem_keep.1 hq
    rw [goesWith_of_mem hmem, Bool.not_eq_true', beq_eq_false_iff_ne] at hstays
    exact ⟨q, hmem, hstays, hrow⟩
  · rintro ⟨q, hmem, hstays, hrow⟩
    refine ⟨q, Table.mem_keep.2 ⟨hmem, ?_⟩, hrow⟩
    rw [goesWith_of_mem (k := .classes) hmem, Bool.not_eq_true', beq_eq_false_iff_ne]
    exact hstays

/-- Elements of other versions stay, told apart by the same columns. -/
theorem exists_mem_deleteVersion {k : ElementKind} {r : Record k.Row}
    (hr : r ∈ (s.table k).records) (hversion : s.versionOf? ⟨k, r.id⟩ ≠ some version) :
    ∃ r' ∈ ((s.deleteVersion version).table k).records,
      r'.id = r.id ∧ k.keyColumns r'.row = k.keyColumns r.row := by
  by_cases hk : k = .classes
  · subst hk
    exact ⟨_, mem_deleteVersion_classes.2 ⟨r, hr, hversion, rfl⟩, rfl, rfl⟩
  · exact ⟨r, (mem_deleteVersion_table hk).2 ⟨hr, hversion⟩, rfl, rfl⟩

/-- Only elements of other versions stay. -/
theorem exists_of_mem_deleteVersion {k : ElementKind} {r : Record k.Row}
    (hr : r ∈ ((s.deleteVersion version).table k).records) :
    ∃ q ∈ (s.table k).records, q.id = r.id ∧ k.keyColumns q.row = k.keyColumns r.row ∧
      s.versionOf? ⟨k, q.id⟩ ≠ some version := by
  by_cases hk : k = .classes
  · subst hk
    obtain ⟨q, hq, hversion, rfl⟩ := mem_deleteVersion_classes.1 hr
    exact ⟨q, hq, rfl, rfl, hversion⟩
  · obtain ⟨hmem, hversion⟩ := (mem_deleteVersion_table hk).1 hr
    exact ⟨r, hmem, rfl, rfl, hversion⟩

/-- A deprecation goes with an element of a kind that may be deprecated. -/
theorem deleteVersion_deprecations :
    (s.deleteVersion version).deprecations = s.deprecations.keep fun r =>
      deletionOrder.all fun k => !(k.takesDeprecation && (r.row.key.1 == k.keyword &&
        ((s.table k).idsWhere (s.goesWith version k)).contains r.row.key.2)) := by
  rw [← dropAll_references Store.deprecations DeprecationRow.key ElementKind.takesDeprecation
    dropElements_deprecations nodup_deletionOrder, deleteVersion_eq]
  generalize s.dropAll (s.goesWith version) deletionOrder = rest
  rfl

/-- An argument goes with an element of a kind that takes arguments. -/
theorem deleteVersion_arguments :
    (s.deleteVersion version).arguments = s.arguments.keep fun r =>
      deletionOrder.all fun k => !(k.takesArguments && (r.row.key.1.1 == k.keyword &&
        ((s.table k).idsWhere (s.goesWith version k)).contains r.row.key.1.2)) := by
  rw [← dropAll_references Store.arguments (fun r => r.key.1) ElementKind.takesArguments
    dropElements_arguments nodup_deletionOrder, deleteVersion_eq]
  generalize s.dropAll (s.goesWith version) deletionOrder = rest
  rfl

@[simp] theorem deleteVersion_software : (s.deleteVersion version).software = s.software := by
  have hsoftware := (dropAll_rest s (s.goesWith version) deletionOrder).1
  rw [deleteVersion_eq]
  dsimp only [dropLinks]
  rw [hsoftware]

@[simp] theorem deleteVersion_versions :
    (s.deleteVersion version).versions = s.versions.keep (·.id != version) := by
  have hversions := (dropAll_rest s (s.goesWith version) deletionOrder).2.1
  rw [deleteVersion_eq]
  dsimp only [dropLinks]
  rw [hversions]

/-- A link between a class and an interface goes with either of them. -/
theorem deleteVersion_classInterfaces :
    (s.deleteVersion version).classInterfaces = s.classInterfaces.keep fun l =>
      s.versionOf? ⟨.classes, l.1⟩ != some version &&
        s.versionOf? ⟨.interfaces, l.2⟩ != some version := by
  have hlinks := (dropAll_rest s (s.goesWith version) deletionOrder).2.2.1
  rw [deleteVersion_eq]
  dsimp only [dropLinks]
  simp only [hlinks, contains_classIds, contains_interfaceIds,
    ownerVersion?_of_element? (o := .classes) rfl, ownerVersion?_of_element? (o := .interfaces) rfl,
    bne]

/-- A link goes with either end. -/
theorem deleteVersion_interfaceParents :
    (s.deleteVersion version).interfaceParents = s.interfaceParents.keep fun l =>
      s.versionOf? ⟨.interfaces, l.1⟩ != some version &&
        s.versionOf? ⟨.interfaces, l.2⟩ != some version := by
  have hlinks := (dropAll_rest s (s.goesWith version) deletionOrder).2.2.2
  rw [deleteVersion_eq]
  dsimp only [dropLinks]
  simp only [hlinks, contains_interfaceIds, ownerVersion?_of_element? (o := .interfaces) rfl, bne]

end Store
end ApiCatalog
