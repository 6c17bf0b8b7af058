import ApiCatalog.Proofs.Store.Delete
import ApiCatalog.Proofs.Store.References

/-!
# Everything lies in one version

In a reachable store every element has its owner, and so it lies in a version that is there
(`Store.HasOwners`). Links do not leave the version that they start in: a parent, an interface that
a class implements and one that an interface extends are all of the version of what refers to them
(`Store.LinksInside`).

Puts and links keep elements in their versions, so of the links only new ones have to be looked at,
and these lead to what was found by name in the same version. A deletion takes a version with all
that lies in it, so a link that stays has both its ends in another one.
-/

namespace ApiCatalog

/-! ## Rows behind a write -/

namespace Table

variable {α κ : Type} [BEq κ] [LawfulBEq κ] {key : α → κ} {t : Table α} {w : Write key}

/-- A record behind a write is a new one, a renewed one of the key, or one that was there before. -/
theorem mem_write_cases {r : Record α} (h : r ∈ (t.write w).records) :
    r = ⟨t.nextId, w.fresh⟩ ∨
      (∃ q ∈ t.records, key q.row = w.target ∧ r = ⟨q.id, w.renew q.row⟩) ∨ r ∈ t.records := by
  unfold write at h
  cases hat : t.at? key w.target with
  | none =>
    rw [hat] at h
    rcases mem_add.1 h with hmem | hnew
    · exact .inr (.inr hmem)
    · exact .inl hnew
  | some q =>
    rw [hat] at h
    obtain ⟨r', hr', rfl⟩ := mem_mapRows.1 h
    by_cases hid : r'.id = q.id
    · have hrow : r' = q := eq_of_id_eq hr' (mem_of_at? hat) hid
      refine .inr (.inl ⟨q, mem_of_at? hat, key_of_at? hat, ?_⟩)
      simp [hrow]
    · refine .inr (.inr ?_)
      simpa [hid] using hr'

end Table

namespace Store

variable {s s' : Store} {version : Int}

/-! ## Behind a deletion -/

/-- What lies in another version than the one that goes still lies there. -/
theorem ownerVersion?_deleteVersion {o : OwnerKind} {id other : Int}
    (h : s.ownerVersion? o id = some other) (hne : other ≠ version) :
    (s.deleteVersion version).ownerVersion? o id = some other := by
  cases hk : o.element? with
  | none =>
    rw [OwnerKind.eq_versions_of_element? hk] at h ⊢
    simpa using h
  | some k =>
    have hstays : s.versionOf? ⟨k, id⟩ ≠ some version := by
      rw [← ownerVersion?_of_element? hk, h]
      exact fun heq => hne (Option.some_inj.1 heq)
    rw [ownerVersion?_eq_some_iff hk] at h ⊢
    obtain ⟨r, hr, rfl, rfl⟩ := h
    obtain ⟨r', hr', hid, hcolumns⟩ := exists_mem_deleteVersion hr hstays
    exact ⟨r', hr', hid, congrArg NaturalKey.owner (ElementKind.key_congr hcolumns)⟩

theorem versionOf?_deleteVersion {o : Owner} {other : Int} (h : s.versionOf? o = some other)
    (hne : other ≠ version) : (s.deleteVersion version).versionOf? o = some other := by
  obtain ⟨k, id⟩ := o
  have hstays : s.versionOf? ⟨k, id⟩ ≠ some version :=
    h.trans_ne fun heq => hne (Option.some_inj.1 heq)
  rw [versionOf?_eq_some_iff] at h ⊢
  obtain ⟨r, hr, rfl, howner⟩ := h
  obtain ⟨r', hr', hid, hcolumns⟩ := exists_mem_deleteVersion hr hstays
  refine ⟨r', hr', hid, ?_⟩
  rw [ElementKind.key_congr hcolumns]
  exact ownerVersion?_deleteVersion howner hne

/-! ## Owners -/

/-- Every element has its owner. -/
def HasOwners (s : Store) : Prop :=
  ∀ k, ∀ r ∈ (s.table k).records, s.hasOwner k.ownerKind (k.key r.row).owner = true

/-- An owner that is there is or lies in a version that is there. -/
theorem HasOwners.hasVersion (h : s.HasOwners) {o : OwnerKind} {id : Int}
    (howner : s.hasOwner o id = true) :
    ∃ version, s.ownerVersion? o id = some version ∧ s.versions.has version = true := by
  cases hk : o.element? with
  | none =>
    rw [OwnerKind.eq_versions_of_element? hk] at howner ⊢
    exact ⟨id, rfl, howner⟩
  | some k =>
    obtain ⟨r, hr, rfl⟩ := (hasOwner_iff_of_element? hk).1 howner
    refine ⟨_, (ownerVersion?_eq_some_iff hk).2 ⟨r, hr, rfl, rfl⟩, ?_⟩
    have hversion := h k r hr
    rwa [OwnerKind.ownerKind_of_element? hk] at hversion

/-- Every element lies in a version. -/
theorem HasOwners.exists_version (h : s.HasOwners) {o : Owner}
    (hhas : (s.table o.kind).has o.id = true) : ∃ version, s.versionOf? o = some version := by
  obtain ⟨k, id⟩ := o
  obtain ⟨r, hr, hid⟩ := Table.has_iff.1 hhas
  obtain ⟨version, hversion, -⟩ := h.hasVersion (h k r hr)
  exact ⟨version, versionOf?_eq_some_iff.2 ⟨r, hr, hid, hversion⟩⟩

/-- A version that something lies in is there. -/
theorem HasOwners.has_of_versionOf? (h : s.HasOwners) {o : Owner}
    (ho : s.versionOf? o = some version) : s.versions.has version = true := by
  obtain ⟨k, id⟩ := o
  obtain ⟨r, hr, -, hversion⟩ := versionOf?_eq_some_iff.1 ho
  obtain ⟨other, hother, hthere⟩ := h.hasVersion (h k r hr)
  rw [Option.some_inj.1 (hversion.symm.trans hother)]
  exact hthere

namespace HasOwners

theorem empty : HasOwners {} := by
  intro k r hr
  cases k <;> cases hr

/-- Owners stay where elements and versions do, so only new elements have to be looked at. -/
theorem of_keeps (h : s.HasOwners) (hkeeps : s.KeepsElements s')
    (hversions : ∀ id, s.versions.has id = true → s'.versions.has id = true)
    (hrows : ∀ k, ∀ r ∈ (s'.table k).records,
      (∃ q ∈ (s.table k).records, k.key q.row = k.key r.row) ∨
        s.hasOwner k.ownerKind (k.key r.row).owner = true) : s'.HasOwners := by
  intro k r hr
  refine hkeeps.hasOwner hversions ?_
  rcases hrows k r hr with ⟨q, hq, hkey⟩ | howner
  · rw [← hkey]
    exact h k q hq
  · exact howner

theorem of_table_eq (h : s.HasOwners) (htable : ∀ k, s'.table k = s.table k)
    (hversions : ∀ id, s.versions.has id = true → s'.versions.has id = true) : s'.HasOwners := by
  refine h.of_keeps (.of_table_eq htable) hversions fun k r hr => .inl ⟨r, ?_, rfl⟩
  rw [← htable k]
  exact hr

theorem put (h : s.HasOwners) (p : Put) (howner : s.hasOwner p.kind.ownerKind p.owner = true) :
    (s.put p).HasOwners := by
  refine h.of_keeps (.put s p) (fun id hid => ?_) fun k r hr => ?_
  · rw [put_versions]
    exact hid
  · by_cases hkind : k = p.kind
    · subst hkind
      rw [put_table] at hr
      rcases Table.mem_write hr with ⟨-, hkey⟩ | ⟨-, hmem⟩
      · have hput : (p.kind.key r.row).owner = p.owner :=
          (congrArg NaturalKey.owner hkey).trans (Change.owner_entryKey p.kind p.entry p.owner)
        rw [hput]
        exact .inr howner
      · exact .inl ⟨r, hmem, rfl⟩
    · rw [put_table_of_ne s p hkind] at hr
      exact .inl ⟨r, hr, rfl⟩

theorem linkClass (h : s.HasOwners) (id version : Int) (e : ClassEntry) :
    (s.linkClass id version e).HasOwners := by
  refine h.of_keeps (.linkClass s id version e) (fun _ hid => hid) fun k r hr => .inl ?_
  cases k with
  | classes =>
    obtain ⟨q, hq, rfl⟩ := mem_classes_linkClass.1 hr
    refine ⟨q, hq, ?_⟩
    dsimp only
    split <;> rfl
  | interfaces | classMethods | interfaceMethods | classProperties | functions | aliases =>
    exact ⟨r, hr, rfl⟩

/-- An element that stays has its owner, since it lies in another version as its owner does. -/
theorem deleteVersion (h : s.HasOwners) (version : Int) : (s.deleteVersion version).HasOwners := by
  intro k r hr
  obtain ⟨q, hq, -, hcolumns, hstays⟩ := exists_of_mem_deleteVersion hr
  rw [← ElementKind.key_congr hcolumns]
  rw [versionOf?_of_mem hq] at hstays
  have howner := h k q hq
  obtain ⟨other, hother, hversion⟩ := h.hasVersion howner
  have hne : other ≠ version := fun heq => hstays (heq ▸ hother)
  have hthere := ownerVersion?_deleteVersion hother hne
  generalize k.ownerKind = o, (k.key q.row).owner = id at howner hother hthere
  cases hk : o.element? with
  | none =>
    rw [OwnerKind.eq_versions_of_element? hk] at howner hother ⊢
    obtain ⟨v, hv, rfl⟩ := Table.has_iff.1 howner
    have hkept : v.id ≠ version := by rwa [Option.some_inj.1 hother]
    show (s.deleteVersion version).versions.has v.id = true
    rw [deleteVersion_versions]
    exact Table.has_iff.2 ⟨v, Table.mem_keep.2 ⟨hv, bne_iff_ne.2 hkept⟩, rfl⟩
  | some l =>
    obtain ⟨r, hr, hid, -⟩ := (ownerVersion?_eq_some_iff hk).1 hthere
    exact (hasOwner_iff_of_element? hk).2 ⟨r, hr, hid⟩

theorem step (hstep : Step s s') (h : s.HasOwners) : s'.HasOwners := by
  cases hstep with
  | addSoftware row hslug hnew => exact h.of_table_eq (fun k => by cases k <;> rfl) fun _ hid => hid
  | addVersion row hsoftware hnew =>
    exact h.of_table_eq (fun k => by cases k <;> rfl) fun _ => Table.has_add
  | deleteVersion version => exact h.deleteVersion version
  | put p howner => exact h.put p howner
  | linkClass r e hr => exact h.linkClass _ _ _
  | linkInterface r e hr =>
    exact h.of_table_eq (fun k => by cases k <;> rfl) fun _ hid => hid

end HasOwners

/-! ## Links -/

/-- Both elements lie in one version. -/
def SameVersion (s : Store) (o o' : Owner) : Prop :=
  ∃ version, s.versionOf? o = some version ∧ s.versionOf? o' = some version

theorem SameVersion.of_keeps {o o' : Owner} (h : s.SameVersion o o') (hkeeps : s.KeepsElements s') :
    s'.SameVersion o o' := by
  obtain ⟨version, ho, ho'⟩ := h
  exact ⟨version, hkeeps.versionOf? ho, hkeeps.versionOf? ho'⟩

/-- Elements of one version stay if one of them does. -/
theorem SameVersion.deleteVersion {o o' : Owner} (h : s.SameVersion o o')
    (hstays : s.versionOf? o ≠ some version) : (s.deleteVersion version).SameVersion o o' := by
  obtain ⟨other, ho, ho'⟩ := h
  have hne : other ≠ version := fun heq => hstays (heq ▸ ho)
  exact ⟨other, versionOf?_deleteVersion ho hne, versionOf?_deleteVersion ho' hne⟩

/-- The class under an id has a parent. -/
def Extends (s : Store) (id parent : Int) : Prop :=
  ∃ r ∈ s.classes.records, r.id = id ∧ r.row.parent = some parent

/-- Links lead to other elements of the version that they start in. -/
structure LinksInside (s : Store) : Prop where
  parents : ∀ id parent, s.Extends id parent →
    parent ≠ id ∧ s.SameVersion ⟨.classes, id⟩ ⟨.classes, parent⟩
  classInterfaces : ∀ l ∈ s.classInterfaces.pairs,
    s.SameVersion ⟨.classes, l.1⟩ ⟨.interfaces, l.2⟩
  interfaceParents : ∀ l ∈ s.interfaceParents.pairs,
    l.2 ≠ l.1 ∧ s.SameVersion ⟨.interfaces, l.1⟩ ⟨.interfaces, l.2⟩

/-- What a name of a version stands for lies in that version. -/
theorem versionOf?_of_mem_interfacesNamed {names : List String} {i : Int}
    (h : i ∈ s.interfacesNamed version names) : s.versionOf? ⟨.interfaces, i⟩ = some version := by
  obtain ⟨name, -, r, hr, rfl⟩ := mem_interfacesNamed.1 h
  rw [interfaceNamed?_eq] at hr
  rw [versionOf?_interface_eq_some_iff]
  exact ⟨r, Table.mem_of_at? hr, rfl, congrArg Prod.fst (Table.key_of_at? hr)⟩

theorem versionOf?_of_parentOf? {e : ClassEntry} {id parent : Int}
    (h : s.parentOf? id version e = some parent) :
    parent ≠ id ∧ s.versionOf? ⟨.classes, parent⟩ = some version := by
  obtain ⟨-, hne, ⟨r, hr, hid, hversion, -⟩, -⟩ := parentOf?_eq_some_iff.1 h
  exact ⟨hne, versionOf?_class_eq_some_iff.2 ⟨r, hr, hid, hversion⟩⟩

namespace LinksInside

theorem empty : LinksInside {} where
  parents id parent h := by
    obtain ⟨r, hr, -⟩ := h
    cases hr
  classInterfaces l hl := by cases hl
  interfaceParents l hl := by cases hl

/-- Elements stay in their versions, so only new links have to be looked at. -/
theorem of_keeps (h : s.LinksInside) (hkeeps : s.KeepsElements s')
    (hparents : ∀ id parent, s'.Extends id parent → s.Extends id parent ∨
      parent ≠ id ∧ s.SameVersion ⟨.classes, id⟩ ⟨.classes, parent⟩)
    (hclassInterfaces : ∀ l ∈ s'.classInterfaces.pairs, l ∈ s.classInterfaces.pairs ∨
      s.SameVersion ⟨.classes, l.1⟩ ⟨.interfaces, l.2⟩)
    (hinterfaceParents : ∀ l ∈ s'.interfaceParents.pairs, l ∈ s.interfaceParents.pairs ∨
      l.2 ≠ l.1 ∧ s.SameVersion ⟨.interfaces, l.1⟩ ⟨.interfaces, l.2⟩) : s'.LinksInside where
  parents id parent hparent := by
    have hinside := (hparents id parent hparent).elim (h.parents id parent) fun hnew => hnew
    exact ⟨hinside.1, hinside.2.of_keeps hkeeps⟩
  classInterfaces l hl := by
    have hinside := (hclassInterfaces l hl).elim (h.classInterfaces l) fun hnew => hnew
    exact hinside.of_keeps hkeeps
  interfaceParents l hl := by
    have hinside := (hinterfaceParents l hl).elim (h.interfaceParents l) fun hnew => hnew
    exact ⟨hinside.1, hinside.2.of_keeps hkeeps⟩

/-- An entry says nothing about links, and a new class has no parent yet. -/
theorem put (h : s.LinksInside) (p : Put) : (s.put p).LinksInside := by
  refine h.of_keeps (.put s p) (fun id parent hparent => .inl ?_) (fun l hl => .inl ?_)
    fun l hl => .inl ?_
  · obtain ⟨r, hr, hid, hrow⟩ := hparent
    obtain ⟨k, e, owner⟩ := p
    cases k with
    | classes =>
      have hwrite : r ∈ (s.classes.write (Put.write ⟨.classes, e, owner⟩)).records := hr
      rcases Table.mem_write_cases hwrite with rfl | ⟨q, hq, -, rfl⟩ | hmem
      · cases hrow
      · exact ⟨q, hq, hid, hrow⟩
      · exact ⟨r, hmem, hid, hrow⟩
    | interfaces | classMethods | interfaceMethods | classProperties | functions | aliases =>
      exact ⟨r, hr, hid, hrow⟩
  · rwa [put_classInterfaces] at hl
  · rwa [put_interfaceParents] at hl

/-- A class is linked to what its entry names in the version of the class. -/
theorem linkClass (h : s.LinksInside) {r : Record ClassRow} (e : ClassEntry)
    (hr : r ∈ s.classes.records) : (s.linkClass r.id r.row.version e).LinksInside := by
  have hversion : s.versionOf? ⟨.classes, r.id⟩ = some r.row.version :=
    versionOf?_class_eq_some_iff.2 ⟨r, hr, rfl, rfl⟩
  refine h.of_keeps (.linkClass s _ _ e) (fun id parent hparent => ?_) (fun l hl => ?_)
    fun l hl => .inl hl
  · obtain ⟨r', hr', rfl, hrow⟩ := hparent
    obtain ⟨q, hq, rfl⟩ := mem_classes_linkClass.1 hr'
    dsimp only at hrow ⊢
    by_cases hid : q.id = r.id
    · rw [if_pos hid] at hrow
      obtain ⟨hne, hparent⟩ := versionOf?_of_parentOf? hrow
      rw [hid]
      exact .inr ⟨hne, r.row.version, hversion, hparent⟩
    · rw [if_neg hid] at hrow
      exact .inl ⟨q, hq, rfl, hrow⟩
  · rw [classInterfaces_linkClass, Links.mem_redirect] at hl
    rcases hl with ⟨hid, hnamed⟩ | ⟨-, hold⟩
    · rw [hid]
      exact .inr ⟨r.row.version, hversion, versionOf?_of_mem_interfacesNamed hnamed⟩
    · exact .inl hold

theorem linkInterface (h : s.LinksInside) {r : Record ElementRow} (e : InterfaceEntry)
    (hr : r ∈ s.interfaces.records) : (s.linkInterface r.id r.row.version e).LinksInside := by
  have hversion : s.versionOf? ⟨.interfaces, r.id⟩ = some r.row.version :=
    versionOf?_interface_eq_some_iff.2 ⟨r, hr, rfl, rfl⟩
  refine h.of_keeps (.linkInterface s _ _ e) (fun id parent hparent => .inl hparent)
    (fun l hl => .inl hl) fun l hl => ?_
  rw [interfaceParents_linkInterface, Links.mem_redirect] at hl
  rcases hl with ⟨hid, hnamed⟩ | ⟨-, hold⟩
  · obtain ⟨hmem, hne⟩ := List.mem_filter.1 hnamed
    rw [hid]
    exact .inr ⟨bne_iff_ne.1 hne, r.row.version, hversion, versionOf?_of_mem_interfacesNamed hmem⟩
  · exact .inl hold

/-- Links that stay lead to what stays. -/
theorem deleteVersion (h : s.LinksInside) (version : Int) :
    (s.deleteVersion version).LinksInside where
  parents id parent hparent := by
    obtain ⟨r, hr, rfl, hrow⟩ := hparent
    obtain ⟨q, hq, hstays, rfl⟩ := mem_deleteVersion_classes.1 hr
    have hparent : q.row.parent = some parent := (Option.filter_eq_some_iff.1 hrow).1
    obtain ⟨hne, hsame⟩ := h.parents q.id parent ⟨q, hq, rfl, hparent⟩
    exact ⟨hne, hsame.deleteVersion hstays⟩
  classInterfaces l hl := by
    rw [deleteVersion_classInterfaces, Links.mem_keep, Bool.and_eq_true, bne_iff_ne] at hl
    exact (h.classInterfaces l hl.1).deleteVersion hl.2.1
  interfaceParents l hl := by
    rw [deleteVersion_interfaceParents, Links.mem_keep, Bool.and_eq_true, bne_iff_ne] at hl
    obtain ⟨hne, hsame⟩ := h.interfaceParents l hl.1
    exact ⟨hne, hsame.deleteVersion hl.2.1⟩

theorem step (hstep : Step s s') (h : s.LinksInside) : s'.LinksInside := by
  cases hstep with
  | addSoftware row hslug hnew =>
    exact h.of_keeps (.of_table_eq fun k => by cases k <;> rfl) (fun _ _ hparent => .inl hparent)
      (fun _ hl => .inl hl) fun _ hl => .inl hl
  | addVersion row hsoftware hnew =>
    exact h.of_keeps (.of_table_eq fun k => by cases k <;> rfl) (fun _ _ hparent => .inl hparent)
      (fun _ hl => .inl hl) fun _ hl => .inl hl
  | deleteVersion version => exact h.deleteVersion version
  | put p howner => exact h.put p
  | linkClass r e hr => exact h.linkClass e hr
  | linkInterface r e hr => exact h.linkInterface e hr

end LinksInside
end Store

namespace Reachable

variable {s : Store}

theorem hasOwners (h : Reachable s) : s.HasOwners := h.of_step .empty fun _ _ => .step

theorem linksInside (h : Reachable s) : s.LinksInside := h.of_step .empty fun _ _ => .step

end Reachable
end ApiCatalog
