import ApiCatalog.Proofs.Store.Import

/-!
# The version of an element

An element of a version names it as its owner, a member lies in the version of its class or
interface. `Store.ownerVersion?` says which version an owner is or lies in, and `versionOf?_of_mem`
reads the version of an element off its row.

Puts and links keep elements: none goes, and none gets other columns that it is told apart by
(`Store.KeepsElements`). So the version of an element that is there never changes.
-/

namespace ApiCatalog

/-! ## The columns of natural keys -/

/-- The columns that elements are told apart by, as they are stored. -/
structure KeyColumns where
  owner : Int
  scope : Option String
  name : String
deriving DecidableEq, Repr

namespace ElementKind

/-- The columns that an element is told apart by. -/
def keyColumns : (k : ElementKind) → k.Row → KeyColumns
  | .classes, r => ⟨r.version, r.ns, r.shortName⟩
  | .interfaces, r => ⟨r.version, r.ns, r.shortName⟩
  | .classMethods, r => ⟨r.owner, none, r.name⟩
  | .interfaceMethods, r => ⟨r.owner, none, r.name⟩
  | .classProperties, r => ⟨r.owner, none, r.name⟩
  | .functions, r => ⟨r.version, r.ns, r.shortName⟩
  | .aliases, r => ⟨r.version, some r.oldName, r.newName⟩

variable {k : ElementKind}

/-- The natural key is read off its columns; no scope and an empty one are the same. -/
theorem key_eq_of_keyColumns (k : ElementKind) (row : k.Row) :
    k.key row =
      ⟨(k.keyColumns row).owner, (k.keyColumns row).scope.getD "", (k.keyColumns row).name⟩ := by
  cases k <;> rfl

theorem key_congr {row row' : k.Row} (h : k.keyColumns row' = k.keyColumns row) :
    k.key row' = k.key row := by
  rw [key_eq_of_keyColumns, key_eq_of_keyColumns, h]

/-- A row that is refreshed by an entry of its key is told apart by the same columns. -/
theorem keyColumns_refresh {e : k.Entry} {owner : Int} {row : k.Row}
    (h : k.key row = k.entryKey e owner) : k.keyColumns (k.refresh e row) = k.keyColumns row := by
  cases k with
  | classes | interfaces | functions | aliases => rfl
  | classMethods | interfaceMethods | classProperties =>
    have hname : row.name = e.name := congrArg NaturalKey.name h
    show KeyColumns.mk row.owner none e.name = ⟨row.owner, none, row.name⟩
    rw [hname]

end ElementKind

/-! ## Rows that stay -/

namespace Table

variable {α κ : Type} [BEq κ] [LawfulBEq κ] {key : α → κ} {t : Table α} {w : Write key}
  {r : Record α}

theorem mem_update_iff {id : Int} {f : α → α} (h : r.id ≠ id) :
    r ∈ (t.update id f).records ↔ r ∈ t.records := by
  unfold update
  rw [mem_mapRows]
  constructor
  · rintro ⟨q, hq, rfl⟩
    have hid : q.id ≠ id := h
    simpa [hid] using hq
  · intro hr
    exact ⟨r, hr, by simp [h]⟩

omit [LawfulBEq κ] in
/-- A write leaves the records under all other ids alone. -/
theorem mem_write_iff (h : r.id ≠ t.idAt key w.target) :
    r ∈ (t.write w).records ↔ r ∈ t.records := by
  unfold write
  unfold idAt at h
  split
  · next q hq =>
    rw [hq] at h
    exact mem_update_iff h
  · next hnone =>
    rw [hnone] at h
    rw [mem_add]
    constructor
    · rintro (hr | rfl)
      · exact hr
      · exact absurd rfl h
    · exact .inl

/-- A write leaves the records of all other keys alone. -/
theorem mem_write_iff_of_key (h : key r.row ≠ w.target) :
    r ∈ (t.write w).records ↔ r ∈ t.records := by
  constructor
  · intro hr
    rcases mem_write hr with ⟨-, hkey⟩ | ⟨-, hmem⟩
    · exact absurd hkey h
    · exact hmem
  · intro hr
    exact (mem_write_iff (idAt_ne hr h).symm).2 hr

/-- A record stays as it is, unless it is the one that is renewed. -/
theorem mem_write_or_renew (h : r ∈ t.records) :
    r ∈ (t.write w).records ∨
      key r.row = w.target ∧ (⟨r.id, w.renew r.row⟩ : Record α) ∈ (t.write w).records := by
  by_cases hid : r.id = t.idAt key w.target
  · have hkey : key r.row = w.target := Classical.byContradiction fun hne =>
      idAt_ne h hne hid.symm
    unfold write
    unfold idAt at hid
    cases hat : t.at? key w.target with
    | none =>
      rw [hat] at hid
      exact absurd hid (id_ne_nextId h)
    | some q =>
      rw [hat] at hid
      refine .inr ⟨hkey, mem_mapRows.2 ⟨r, h, ?_⟩⟩
      simp [hid]
  · exact .inl ((mem_write_iff hid).2 h)

end Table

namespace Store

/-- Every element of the store is in the other one, under its id, and is told apart by the same
columns. -/
def KeepsElements (s s' : Store) : Prop :=
  ∀ k, ∀ r ∈ (s.table k).records,
    ∃ r' ∈ (s'.table k).records, r'.id = r.id ∧ k.keyColumns r'.row = k.keyColumns r.row

namespace KeepsElements

variable {s s' s'' : Store}

theorem of_table_eq (h : ∀ k, s'.table k = s.table k) : s.KeepsElements s' := by
  intro k r hr
  exact ⟨r, by rw [h]; exact hr, rfl, rfl⟩

theorem refl (s : Store) : s.KeepsElements s := of_table_eq fun _ => rfl

theorem trans (h : s.KeepsElements s') (h' : s'.KeepsElements s'') : s.KeepsElements s'' := by
  intro k r hr
  obtain ⟨r', hr', hid, hcolumns⟩ := h k r hr
  obtain ⟨r'', hr'', hid', hcolumns'⟩ := h' k r' hr'
  exact ⟨r'', hr'', hid'.trans hid, hcolumns'.trans hcolumns⟩

theorem put (s : Store) (p : Put) : s.KeepsElements (s.put p) := by
  intro k r hr
  by_cases hkind : k = p.kind
  · subst hkind
    rw [put_table]
    rcases Table.mem_write_or_renew (w := p.write) hr with hmem | ⟨hkey, hmem⟩
    · exact ⟨r, hmem, rfl, rfl⟩
    · exact ⟨_, hmem, rfl, ElementKind.keyColumns_refresh hkey⟩
  · rw [put_table_of_ne s p hkind]
    exact ⟨r, hr, rfl, rfl⟩

theorem linkClass (s : Store) (id version : Int) (e : ClassEntry) :
    s.KeepsElements (s.linkClass id version e) := by
  intro k r hr
  cases k with
  | classes =>
    -- A class that is linked has another parent, which is no part of its key.
    refine ⟨_, mem_classes_linkClass.2 ⟨r, hr, rfl⟩, rfl, ?_⟩
    dsimp only
    split <;> rfl
  | interfaces | classMethods | interfaceMethods | classProperties | functions | aliases =>
    exact ⟨r, hr, rfl, rfl⟩

theorem linkInterface (s : Store) (id version : Int) (e : InterfaceEntry) :
    s.KeepsElements (s.linkInterface id version e) :=
  of_table_eq fun k => by cases k <;> rfl

end KeepsElements
end Store

/-! ## Owners -/

/-- The kind of the elements that owners of the kind are, if these are no versions. -/
def OwnerKind.element? : OwnerKind → Option ElementKind
  | .versions => none
  | .classes => some .classes
  | .interfaces => some .interfaces

theorem OwnerKind.eq_versions_of_element? {o : OwnerKind} (h : o.element? = none) :
    o = .versions := by
  cases o <;> first | rfl | cases h

/-- Classes and interfaces belong to a version themselves. -/
theorem OwnerKind.ownerKind_of_element? {o : OwnerKind} {k : ElementKind}
    (h : o.element? = some k) : k.ownerKind = .versions := by
  cases o <;> cases h <;> rfl

namespace Store

/-- The version that an owner is, or that it lies in. -/
def ownerVersion? (s : Store) : OwnerKind → Int → Option Int
  | .versions, id => some id
  | .classes, id => (s.classes.get? id).map (·.version)
  | .interfaces, id => (s.interfaces.get? id).map (·.version)

variable {s s' : Store} {version : Int}

@[simp] theorem ownerVersion?_versions (id : Int) : s.ownerVersion? .versions id = some id := rfl

/-- An element lies in the version of its owner. -/
theorem versionOf?_of_mem {k : ElementKind} {r : Record k.Row} (hr : r ∈ (s.table k).records) :
    s.versionOf? ⟨k, r.id⟩ = s.ownerVersion? k.ownerKind (k.key r.row).owner := by
  have hget : (s.table k).get? r.id = some r.row := Table.get?_eq_some_iff.2 hr
  unfold versionOf?
  dsimp only
  rw [hget]
  cases k with
  | classes | interfaces | functions | aliases => rfl
  | classMethods | classProperties | interfaceMethods =>
    unfold ownerVersion?
    exact (Option.map_eq_bind ..).symm

/-- An element in a version is a row whose owner is or lies in that version. -/
theorem versionOf?_eq_some_iff {k : ElementKind} {id : Int} :
    s.versionOf? ⟨k, id⟩ = some version ↔ ∃ r ∈ (s.table k).records,
      r.id = id ∧ s.ownerVersion? k.ownerKind (k.key r.row).owner = some version := by
  constructor
  · intro h
    have hget : ∃ row, (s.table k).get? id = some row := by
      unfold versionOf? at h
      obtain ⟨row, hrow, -⟩ := Option.bind_eq_some_iff.1 h
      exact ⟨row, hrow⟩
    obtain ⟨row, hrow⟩ := hget
    have hmem : ⟨id, row⟩ ∈ (s.table k).records := Table.get?_eq_some_iff.1 hrow
    exact ⟨_, hmem, rfl, (versionOf?_of_mem hmem).symm.trans h⟩
  · rintro ⟨r, hr, rfl, hversion⟩
    exact (versionOf?_of_mem hr).trans hversion

/-- A class in a version is a row of that version. -/
theorem versionOf?_class_eq_some_iff {id : Int} :
    s.versionOf? ⟨.classes, id⟩ = some version ↔
      ∃ r ∈ s.classes.records, r.id = id ∧ r.row.version = version := by
  refine versionOf?_eq_some_iff.trans ?_
  exact exists_congr fun r => and_congr_right fun _ => and_congr_right fun _ => Option.some_inj

theorem versionOf?_interface_eq_some_iff {id : Int} :
    s.versionOf? ⟨.interfaces, id⟩ = some version ↔
      ∃ r ∈ s.interfaces.records, r.id = id ∧ r.row.version = version := by
  refine versionOf?_eq_some_iff.trans ?_
  exact exists_congr fun r => and_congr_right fun _ => and_congr_right fun _ => Option.some_inj

section
variable {o : OwnerKind} {k : ElementKind}

/-- Classes and interfaces lie in the same version as owners and as elements. -/
theorem ownerVersion?_of_element? (h : o.element? = some k) (id : Int) :
    s.ownerVersion? o id = s.versionOf? ⟨k, id⟩ := by
  cases o with
  | versions => cases h
  | classes | interfaces =>
    cases h
    exact Option.map_eq_bind ..

/-- An element that may own others is a row of its version. -/
theorem ownerVersion?_eq_some_iff (h : o.element? = some k) {id : Int} :
    s.ownerVersion? o id = some version ↔
      ∃ r ∈ (s.table k).records, r.id = id ∧ (k.key r.row).owner = version := by
  rw [ownerVersion?_of_element? h]
  cases o with
  | versions => cases h
  | classes =>
    cases h
    exact versionOf?_class_eq_some_iff
  | interfaces =>
    cases h
    exact versionOf?_interface_eq_some_iff

theorem hasOwner_iff_of_element? (h : o.element? = some k) {id : Int} :
    s.hasOwner o id = true ↔ ∃ r ∈ (s.table k).records, r.id = id := by
  cases o with
  | versions => cases h
  | classes | interfaces =>
    cases h
    exact Table.has_iff

end

namespace KeepsElements

theorem ownerVersion? (h : s.KeepsElements s') {o : OwnerKind} {id : Int}
    (hversion : s.ownerVersion? o id = some version) :
    s'.ownerVersion? o id = some version := by
  cases hk : o.element? with
  | none =>
    rw [OwnerKind.eq_versions_of_element? hk] at hversion ⊢
    simpa using hversion
  | some k =>
    rw [ownerVersion?_eq_some_iff hk] at hversion ⊢
    obtain ⟨r, hr, rfl, rfl⟩ := hversion
    obtain ⟨r', hr', hid, hcolumns⟩ := h k r hr
    exact ⟨r', hr', hid, congrArg NaturalKey.owner (ElementKind.key_congr hcolumns)⟩

/-- An element that is kept stays in its version. -/
theorem versionOf? (h : s.KeepsElements s') {o : Owner} (hversion : s.versionOf? o = some version) :
    s'.versionOf? o = some version := by
  obtain ⟨k, id⟩ := o
  rw [versionOf?_eq_some_iff] at hversion ⊢
  obtain ⟨r, hr, rfl, howner⟩ := hversion
  obtain ⟨r', hr', hid, hcolumns⟩ := h k r hr
  refine ⟨r', hr', hid, ?_⟩
  rw [ElementKind.key_congr hcolumns]
  exact h.ownerVersion? howner

/-- Owners stay with elements and versions. -/
theorem hasOwner (h : s.KeepsElements s')
    (hversions : ∀ id, s.versions.has id = true → s'.versions.has id = true) {o : OwnerKind}
    {id : Int} (howner : s.hasOwner o id = true) : s'.hasOwner o id = true := by
  cases hk : o.element? with
  | none =>
    rw [OwnerKind.eq_versions_of_element? hk] at howner ⊢
    exact hversions id howner
  | some k =>
    rw [hasOwner_iff_of_element? hk] at howner ⊢
    obtain ⟨r, hr, rfl⟩ := howner
    obtain ⟨r', hr', hid, -⟩ := h k r hr
    exact ⟨r', hr', hid⟩

end KeepsElements
end Store
end ApiCatalog
