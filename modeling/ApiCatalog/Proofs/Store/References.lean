import ApiCatalog.Proofs.Store.Contents
import ApiCatalog.Store.Browse
import Mathlib.Data.List.Nodup

/-!
# Where references lead

Behind an import every class and interface of the document refers to what its last entry names, and
to nothing else: `Store.LinksDocument`. A name is that of a row of the version as the version is in
the end, so it makes no difference in which order the document declares things, and which of them
were there before. Of several rows of a name the one of lowest id is meant.

The interfaces that an interface extends, and those that extend it, are read off the same links
(`parentNames_perm`, `childNames_perm`), so they are two views of one relation.
-/

namespace ApiCatalog

namespace Links

variable {l : Links} {i id : Int}

theorem mem_targets : i ∈ l.targets id ↔ (id, i) ∈ l.pairs := by
  unfold targets
  rw [List.mem_map]
  constructor
  · rintro ⟨p, hp, rfl⟩
    obtain ⟨hmem, hsource⟩ := List.mem_filter.1 hp
    rw [← beq_iff_eq.1 hsource]
    exact hmem
  · intro h
    exact ⟨_, List.mem_filter.2 ⟨h, beq_self_eq_true id⟩, rfl⟩

theorem mem_sources : i ∈ l.sources id ↔ (i, id) ∈ l.pairs := by
  unfold sources
  rw [List.mem_map]
  constructor
  · rintro ⟨p, hp, rfl⟩
    obtain ⟨hmem, htarget⟩ := List.mem_filter.1 hp
    rw [← beq_iff_eq.1 htarget]
    exact hmem
  · intro h
    exact ⟨_, List.mem_filter.2 ⟨h, beq_self_eq_true id⟩, rfl⟩

theorem nodup_targets (l : Links) (id : Int) : (l.targets id).Nodup := by
  refine (l.nodup.filter _).map_on fun p hp q hq hpq => Prod.ext ?_ hpq
  rw [beq_iff_eq.1 (List.mem_filter.1 hp).2, beq_iff_eq.1 (List.mem_filter.1 hq).2]

theorem nodup_sources (l : Links) (id : Int) : (l.sources id).Nodup := by
  refine (l.nodup.filter _).map_on fun p hp q hq hpq => Prod.ext hpq ?_
  rw [beq_iff_eq.1 (List.mem_filter.1 hp).2, beq_iff_eq.1 (List.mem_filter.1 hq).2]

end Links

namespace Table

variable {α κ : Type} {t : Table α}

/-- The id is the lowest one of a row that satisfies `p`. -/
def Lowest (t : Table α) (p : α → Prop) (id : Int) : Prop :=
  (∃ r ∈ t.records, r.id = id ∧ p r.row) ∧ ∀ r ∈ t.records, p r.row → id ≤ r.id

/-- The record of a key is the one of lowest id. -/
theorem at?_id_eq_some_iff [BEq κ] [LawfulBEq κ] {key : α → κ} {c : κ} {p : α → Prop} {id : Int}
    (hp : ∀ row, p row ↔ key row = c) :
    (t.at? key c).map Record.id = some id ↔ t.Lowest p id := by
  rw [Option.map_eq_some_iff]
  constructor
  · rintro ⟨r, hr, rfl⟩
    obtain ⟨hmem, hkey, hlow⟩ := at?_eq_some_iff.1 hr
    exact ⟨⟨r, hmem, rfl, (hp _).2 hkey⟩, fun q hq hrow => hlow q hq ((hp _).1 hrow)⟩
  · rintro ⟨⟨r, hmem, rfl, hrow⟩, hlow⟩
    refine ⟨r, at?_eq_some_iff.2 ⟨hmem, (hp _).1 hrow, fun q hq hkey => ?_⟩, rfl⟩
    exact hlow q hq ((hp _).2 hkey)

theorem id_of_find? {id : Int} {r : Record α} (h : t.records.find? (·.id == id) = some r) :
    r.id = id := by
  simpa using List.find?_some h

/-- Reading the rows of some ids gives the records with these ids. -/
theorem filterMap_get?_perm {β : Type} {ids : List Int} (hids : ids.Nodup) (f : α → β) :
    (ids.filterMap fun id => (t.get? id).map f).Perm
      ((t.records.filter fun r => decide (r.id ∈ ids)).map fun r => f r.row) := by
  have hnodup : (ids.filterMap fun id => t.records.find? (·.id == id)).Nodup := by
    refine hids.filterMap fun i j r hi hj => ?_
    rw [← id_of_find? hi, ← id_of_find? hj]
  have hrecords : t.records.Nodup := t.ascending.imp fun hlt heq => by
    rw [heq] at hlt
    omega
  -- No record occurs twice on either side, so it is enough that they have the same ones.
  have hperm : (ids.filterMap fun id => t.records.find? (·.id == id)).Perm
      (t.records.filter fun r => decide (r.id ∈ ids)) := by
    refine (List.perm_ext_iff_of_nodup hnodup (hrecords.filter _)).2 fun r => ?_
    rw [List.mem_filterMap, List.mem_filter, decide_eq_true_iff]
    constructor
    · rintro ⟨i, hi, hr⟩
      rw [← id_of_find? hr] at hi
      exact ⟨List.mem_of_find?_eq_some hr, hi⟩
    · rintro ⟨hr, hid⟩
      have hget := get?_eq_some_iff.2 hr
      obtain ⟨q, hq, -⟩ := Option.map_eq_some_iff.1 hget
      have hsame : q = r :=
        eq_of_id_eq (List.mem_of_find?_eq_some hq) hr (id_of_find? hq)
      exact ⟨r.id, hid, hsame ▸ hq⟩
  -- The rows are read off the records.
  have hmap := hperm.map fun r => f r.row
  rw [List.map_filterMap] at hmap
  refine .trans (.of_eq ?_) hmap
  refine List.filterMap_congr fun i _ => ?_
  exact Option.map_map ..

end Table

/-! ## Names and references -/

namespace Store

variable (s : Store)

/-- The class of lowest id among those of a name in a version. -/
def LowestClass (version : Int) (name : String) (id : Int) : Prop :=
  s.classes.Lowest (fun row => row.version = version ∧ row.name = name) id

/-- The interface of lowest id among those of a name in a version. -/
def LowestInterface (version : Int) (name : String) (id : Int) : Prop :=
  s.interfaces.Lowest (fun row => row.version = version ∧ row.name = name) id

/-- The class extends the class that its entry names, unless there is none or it is the class
itself, and it implements the interfaces that its entry names. -/
structure LinksClass (version : Int) (e : ClassEntry) (r : Record ClassRow) : Prop where
  only : s.classes.Only
    (fun row => row.version = version ∧ (row.ns.getD "", row.shortName) = e.key) r
  parent : ∀ p, r.row.parent = some p ↔
    e.parent ≠ "" ∧ p ≠ r.id ∧ s.LowestClass version (absoluteName e.parent) p
  implements : ∀ i, (r.id, i) ∈ s.classInterfaces.pairs ↔
    ∃ name ∈ e.implements, s.LowestInterface version (absoluteName name) i

/-- The interface extends the interfaces that its entry names, but not itself. -/
structure LinksInterface (version : Int) (e : InterfaceEntry) (r : Record ElementRow) : Prop where
  only : s.interfaces.Only
    (fun row => row.version = version ∧ (row.ns.getD "", row.shortName) = e.key) r
  parents : ∀ i, (r.id, i) ∈ s.interfaceParents.pairs ↔
    i ≠ r.id ∧ ∃ name ∈ e.parents, s.LowestInterface version (absoluteName name) i

/-- The classes and interfaces of the document refer to what their last entries name. -/
structure LinksDocument (version : Int) (d : Document) : Prop where
  classes : ∀ c e, lastWith? ClassEntry.key c d.classes = some e → ∃ r, s.LinksClass version e r
  interfaces : ∀ c e, lastWith? InterfaceEntry.key c d.interfaces = some e →
    ∃ r, s.LinksInterface version e r
  /-- The parents of an interface are those that it has a link to. -/
  parentNames : ∀ id, (s.parentNames id).Perm
    ((s.interfaces.records.filter fun r => decide ((id, r.id) ∈ s.interfaceParents.pairs)).map
      fun r => r.row.name)
  /-- The children of an interface are those that have a link to it. -/
  childNames : ∀ id, (s.childNames id).Perm
    ((s.interfaces.records.filter fun r => decide ((r.id, id) ∈ s.interfaceParents.pairs)).map
      fun r => r.row.name)

variable {s} {version id : Int}

theorem classNamed?_id_eq_some_iff {name : String} :
    (s.classNamed? version name).map Record.id = some id ↔
      s.LowestClass version (absoluteName name) id := by
  rw [classNamed?_eq]
  refine Table.at?_id_eq_some_iff fun row => ?_
  exact (Prod.ext_iff (x := row.nameKey) (y := (version, absoluteName name))).symm

theorem interfaceNamed?_id_eq_some_iff {name : String} :
    (s.interfaceNamed? version name).map Record.id = some id ↔
      s.LowestInterface version (absoluteName name) id := by
  rw [interfaceNamed?_eq]
  refine Table.at?_id_eq_some_iff fun row => ?_
  exact (Prod.ext_iff (x := row.nameKey) (y := (version, absoluteName name))).symm

theorem parentOf?_eq_some_iff {e : ClassEntry} {p : Int} :
    s.parentOf? id version e = some p ↔
      e.parent ≠ "" ∧ p ≠ id ∧ s.LowestClass version (absoluteName e.parent) p := by
  rw [← classNamed?_id_eq_some_iff]
  unfold parentOf?
  split
  · next h => simp [h]
  · next h =>
    rw [Option.filter_eq_some_iff, bne_iff_ne]
    exact ⟨fun ⟨hp, hne⟩ => ⟨h, hne, hp⟩, fun ⟨_, hne, hp⟩ => ⟨hp, hne⟩⟩

theorem mem_interfacesNamed_iff {names : List String} {i : Int} :
    i ∈ s.interfacesNamed version names ↔
      ∃ name ∈ names, s.LowestInterface version (absoluteName name) i := by
  unfold interfacesNamed
  rw [List.mem_filterMap]
  simp only [interfaceNamed?_id_eq_some_iff]

/-! ## Two views of one relation -/

theorem interfaceNames_perm {ids : List Int} (hids : ids.Nodup) : (s.interfaceNames ids).Perm
    ((s.interfaces.records.filter fun r => decide (r.id ∈ ids)).map fun r => r.row.name) :=
  (List.mergeSort_perm _ _).trans (Table.filterMap_get?_perm hids _)

theorem parentNames_perm (id : Int) : (s.parentNames id).Perm
    ((s.interfaces.records.filter fun r => decide ((id, r.id) ∈ s.interfaceParents.pairs)).map
      fun r => r.row.name) := by
  have hperm := interfaceNames_perm (s := s) (s.interfaceParents.nodup_targets id)
  simp only [Links.mem_targets] at hperm
  exact hperm

theorem childNames_perm (id : Int) : (s.childNames id).Perm
    ((s.interfaces.records.filter fun r => decide ((r.id, id) ∈ s.interfaceParents.pairs)).map
      fun r => r.row.name) := by
  have hperm := interfaceNames_perm (s := s) (s.interfaceParents.nodup_sources id)
  simp only [Links.mem_sources] at hperm
  exact hperm

/-! ## Behind an import -/

/-- Behind an import the document is linked. -/
theorem linksDocument_withDocument {d : Document}
    (hkeys : (s.withDocument version d).HasUniqueKeys) :
    (s.withDocument version d).LinksDocument version d where
  classes c e he := by
    obtain ⟨row, hrow⟩ := showsClass_of_settled hkeys (settled_class he)
    -- What `parentOf?` and `interfacesNamed` find are the lowest rows of the names.
    have hlinked := classLinked_of_last s version he
    refine ⟨_, hrow.only, fun p => ?_, fun i => ?_⟩
    · rw [hlinked.parent row (Table.get?_eq_some_iff.2 hrow.only.1)]
      exact parentOf?_eq_some_iff
    · rw [hlinked.interfaces i]
      exact mem_interfacesNamed_iff
  interfaces c e he := by
    obtain ⟨row, hrow⟩ := showsInterface_of_settled hkeys (settled_interface he)
    have hlinked := interfaceLinked_of_last s version he
    refine ⟨_, hrow.only, fun i => ?_⟩
    rw [hlinked i, mem_interfacesNamed_iff]
    exact and_comm
  parentNames := parentNames_perm
  childNames := childNames_perm

end Store

/-- An import into a version of a reachable store leaves every class and interface of the document
with the references that its last entry names, and with no other ones. -/
theorem Reachable.import_links {s : Store} (h : Reachable s) {version : Int}
    (hversion : s.versions.has version = true) (d : Document) :
    ∃ s', (Change.importInto version d).apply s = (.ok d.counts, s') ∧
      (Change.importDocument version d).apply s = (.ok d.counts, s') ∧ s'.LinksDocument version d :=
  ⟨_, Change.importInto_apply hversion, Change.importDocument_apply hversion,
    Store.linksDocument_withDocument (h.hasUniqueKeys_withDocument hversion)⟩

theorem Reachable.import_links_animals :
    ∃ s', (Change.importInto 1 .animals).apply .oneVersion = (.ok Document.animals.counts, s') ∧
      (Change.importDocument 1 .animals).apply .oneVersion = (.ok Document.animals.counts, s') ∧
        s'.LinksDocument 1 .animals :=
  reachable_oneVersion.import_links (by decide +kernel) .animals

end ApiCatalog
