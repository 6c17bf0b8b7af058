import ApiCatalog.Php.Entries
import ApiCatalog.Proofs.Store.Named
import ApiCatalog.Proofs.Store.References
import ApiCatalog.Proofs.Text.Blank

/-!
# One row for each declaration

Declarations that differ in their namespace or their name do not share a row. Three places have to
agree on that. A document spells the absence of a namespace as one called `global`, the store spells
it as no namespace again, and what a class extends is written before either of them sees it.

They agree on every namespace but `global` itself (`storedNamespace_documentNamespace`), whose
elements are taken for those of no namespace. Behind an import into an empty version the elements
are then those of the declarations (`Store.Covers`), and a qualified name leads to one of them
(`Store.Covers.lowest`).
-/

namespace ApiCatalog

/-! ## Namespaces -/

/-- The text is the name of a namespace that is not taken for the absence of one: it has no
separator at its ends, and it is not `global`. -/
structure IsNamespace (ns : String) : Prop where
  ne_empty : ns ≠ ""
  ne_global : ns ≠ globalNamespace
  head : ns.toList.head? ≠ some '\\'
  last : ns.toList.getLast? ≠ some '\\'

instance (ns : String) : Decidable (IsNamespace ns) :=
  decidable_of_iff
    (ns ≠ "" ∧ ns ≠ globalNamespace ∧ ns.toList.head? ≠ some '\\' ∧
      ns.toList.getLast? ≠ some '\\')
    ⟨fun ⟨hempty, hglobal, hhead, hlast⟩ => ⟨hempty, hglobal, hhead, hlast⟩,
      fun h => ⟨h.ne_empty, h.ne_global, h.head, h.last⟩⟩

section
variable {ns : Option String} {name : String}

/-- A namespace, or none, is stored as it is declared. -/
theorem storedNamespace_documentNamespace (h : ∀ n ∈ ns, IsNamespace n) :
    storedNamespace (Php.documentNamespace ns) = ns := by
  cases ns with
  | none => rfl
  | some n =>
    obtain ⟨hempty, hglobal, hhead, hlast⟩ := h n rfl
    show storedNamespace n = some n
    unfold storedNamespace
    rw [if_neg (not_or.2 ⟨hempty, hglobal⟩), Text.dropAround_eq_self hhead hlast,
      String.ofList_toList]

/-- What stands under a namespace has no separator in front. -/
theorem absoluteName_qualifiedName (h : ∀ n ∈ ns, IsNamespace n) (hname : '\\' ∉ name.toList) :
    absoluteName (qualifiedName ns name) = qualifiedName ns name := by
  have hhead : (qualifiedName ns name).toList.head? ≠ some '\\' := by
    cases ns with
    | none => exact fun heq => hname (List.mem_of_head? heq)
    | some n =>
      obtain ⟨hempty, -, hhead, -⟩ := h n rfl
      have hne : n.toList ≠ [] := fun hnil => hempty (String.toList_eq_nil_iff.1 hnil)
      have hlist : (qualifiedName (some n) name).toList = n.toList ++ '\\' :: name.toList := by
        simp [qualifiedName]
      rwa [hlist, List.head?_append_of_ne_nil _ hne]
  unfold absoluteName
  rw [Text.dropLeading_eq_self hhead, String.ofList_toList]

end

/-! ## Elements of a version -/

/-- The classes, interfaces or functions of a version. -/
def Store.elements (s : Store) (k : ElementKind) (version : Int) : List ElementRow :=
  ((s.table k).rows.filterMap k.element?).filter (·.version == version)

/-- The element lies in the version, in this namespace and under this short name. -/
structure ElementRow.StandsAt (r : ElementRow) (version : Int) (ns : Option String)
    (name : String) : Prop where
  version : r.version = version
  ns : r.ns = ns
  shortName : r.shortName = name

/-- The elements of a kind in the version are those of the namespaces and short names given, and
they are named by these. -/
structure Store.Covers (s : Store) (k : ElementKind) (version : Int)
    (names : List (Option String × String)) : Prop where
  every : ∀ q ∈ (s.table k).records, ∀ r ∈ k.element? q.row, r.version = version →
    r.IsNamed ∧ (r.ns, r.shortName) ∈ names
  each : ∀ ns name, (ns, name) ∈ names →
    ∃ q ∈ (s.table k).records, ∃ r ∈ k.element? q.row, r.StandsAt version ns name

namespace Store

variable {s : Store} {k : ElementKind} {version : Int} {names : List (Option String × String)}
  {r : ElementRow}

theorem mem_elements : r ∈ s.elements k version ↔
    ∃ q ∈ (s.table k).records, k.element? q.row = some r ∧ r.version = version := by
  unfold elements Table.rows
  rw [List.mem_filter, List.mem_filterMap, beq_iff_eq]
  constructor
  · rintro ⟨⟨row, hrow, hr⟩, hversion⟩
    obtain ⟨q, hq, rfl⟩ := List.mem_map.1 hrow
    exact ⟨q, hq, hr, hversion⟩
  · rintro ⟨q, hq, hr, hversion⟩
    exact ⟨⟨q.row, List.mem_map_of_mem hq, hr⟩, hversion⟩

/-- No two elements of a version share namespace and short name. -/
theorem nodup_elements (hkeys : s.HasUniqueKeys) (k : ElementKind) (version : Int) :
    ((s.elements k version).map fun r => (r.ns, r.shortName)).Nodup := by
  unfold elements Table.rows
  rw [List.filterMap_map, List.Nodup, List.pairwise_map]
  -- Elements of different records have different keys, and the version is no difference.
  refine List.Pairwise.imp_of_mem (R := fun r r' => r.key ≠ r'.key) (fun hr hr' hne heq => hne ?_)
    (List.Pairwise.filter _ (List.pairwise_filterMap.2 ?_))
  · have hversion := beq_iff_eq.1 (List.mem_filter.1 hr).2
    have hversion' := beq_iff_eq.1 (List.mem_filter.1 hr').2
    obtain ⟨hns, hname⟩ := Prod.mk.injEq .. ▸ heq
    unfold ElementRow.key
    rw [hversion, hversion', hns, hname]
  · refine (s.table k).ascending.imp_of_mem fun {q q'} hq hq' hlt r hr r' hr' hkey => ?_
    rw [← ElementKind.key_of_element? hr, ← ElementKind.key_of_element? hr'] at hkey
    rw [hkeys.elements k q hq q' hq' hkey] at hlt
    omega

namespace Covers

variable (h : s.Covers k version names)
include h

/-- Each namespace and short name has one element in the version, which is named by these. -/
theorem perm (hkeys : s.HasUniqueKeys) (hnames : names.Nodup) :
    ((s.elements k version).map fun r => (r.name, r.ns, r.shortName)).Perm
      (names.map fun p => (qualifiedName p.1 p.2, p.1, p.2)) := by
  have hperm : ((s.elements k version).map fun r => (r.ns, r.shortName)).Perm names := by
    -- No pair stands twice on either side, so having the same ones is enough.
    refine (List.perm_ext_iff_of_nodup (nodup_elements hkeys k version) hnames).2 fun p => ?_
    rw [List.mem_map]
    constructor
    · rintro ⟨r, hr, rfl⟩
      obtain ⟨q, hq, hrow, hversion⟩ := mem_elements.1 hr
      exact (h.every q hq r hrow hversion).2
    · intro hp
      obtain ⟨q, hq, r, hrow, hversion, hns, hname⟩ := h.each p.1 p.2 hp
      exact ⟨r, mem_elements.2 ⟨q, hq, hrow, hversion⟩, Prod.ext hns hname⟩
  have hnamed : (s.elements k version).map (fun r => (r.name, r.ns, r.shortName)) =
      ((s.elements k version).map fun r => (r.ns, r.shortName)).map
        fun p => (qualifiedName p.1 p.2, p.1, p.2) := by
    rw [List.map_map]
    refine List.map_congr_left fun r hr => ?_
    obtain ⟨q, hq, hrow, hversion⟩ := mem_elements.1 hr
    rw [(h.every q hq r hrow hversion).1.name]
    rfl
  rw [hnamed]
  exact hperm.map _

/-- The row of an element that is found under its key stands where the element was declared. -/
theorem standsAt {q : Record k.Row} (hq : q ∈ (s.table k).records) (hr : r ∈ k.element? q.row)
    {ns : Option String} {name : String} (hns : ∀ n ∈ ns, IsNamespace n)
    (hkey : r.version = version ∧
      (r.ns.getD "", r.shortName) = declaredKey (Php.documentNamespace ns) name) :
    r.StandsAt version ns name := by
  obtain ⟨hversion, hpair⟩ := hkey
  obtain ⟨hscope, hname⟩ := Prod.mk.injEq .. ▸ hpair
  rw [storedNamespace_documentNamespace hns] at hscope
  have hne : ns ≠ some "" := fun heq => (hns "" heq).ne_empty rfl
  exact ⟨hversion, ElementRow.eq_of_getD_eq (h.every q hq r hr hversion).1.ns_ne hne hscope, hname⟩

/-- Unless short names have separators in them, a name stands for one element at most. -/
theorem eq_of_name (hkeys : s.HasUniqueKeys) (hshort : ∀ p ∈ names, '\\' ∉ p.2.toList)
    {q q' : Record k.Row} (hq : q ∈ (s.table k).records) (hq' : q' ∈ (s.table k).records)
    {r' : ElementRow} (hr : r ∈ k.element? q.row) (hr' : r' ∈ k.element? q'.row)
    (hversion : r.version = version) (hversion' : r'.version = version) (hname : r.name = r'.name) :
    q = q' := by
  obtain ⟨hnamed, hmem⟩ := h.every q hq r hr hversion
  obtain ⟨hnamed', hmem'⟩ := h.every q' hq' r' hr' hversion'
  rw [hnamed.name, hnamed'.name] at hname
  obtain ⟨hns, hshorts⟩ : r.ns = r'.ns ∧ r.shortName = r'.shortName :=
    qualifiedName_inj (hshort _ hmem) (hshort _ hmem') hname
  refine hkeys.elements k q hq q' hq' ?_
  rw [ElementKind.key_of_element? hr, ElementKind.key_of_element? hr']
  unfold ElementRow.key
  rw [hversion, hversion', hns, hshorts]

/-- Of the elements of the version, the one that stands under a name is the one of this name. -/
theorem lowest (hkeys : s.HasUniqueKeys) (hshort : ∀ p ∈ names, '\\' ∉ p.2.toList)
    (element : k.Row → ElementRow) (helement : ∀ row, k.element? row = some (element row))
    {q : Record k.Row} (hq : q ∈ (s.table k).records) {ns : Option String} {name : String}
    (hstands : (element q.row).StandsAt version ns name) :
    (s.table k).Lowest
      (fun row => (element row).version = version ∧ (element row).name = qualifiedName ns name)
      q.id := by
  obtain ⟨hversion, rfl, rfl⟩ := hstands
  have hname := (h.every q hq _ (helement _) hversion).1.name
  refine ⟨⟨q, hq, rfl, hversion, hname⟩, fun q' hq' ⟨hversion', hname'⟩ => ?_⟩
  have heq := h.eq_of_name hkeys hshort hq hq' (helement _) (helement _) hversion hversion'
    (hname.trans hname'.symm)
  exact Int.le_of_eq (congrArg Record.id heq)

end Covers

/-! ## Behind an import into an empty version -/

/-- In the version, the element is one that an entry of the document names. -/
def MadeFrom (d : Document) (version : Int) (k : ElementKind) (r : ElementRow) : Prop :=
  r.version = version → r.IsNamed ∧ ∃ e ∈ d.elementEntries k, ∃ ns ∈ k.namespace? e,
    r.ns = storedNamespace ns ∧ r.shortName = k.entryName e

theorem entryLaw_madeFrom {d : Document} (hd : ∀ ns ∈ d.namespaces, storedNamespace ns ≠ some "") :
    EntryLaw (fun p => ∃ s : Store, s.Puts version d p) (MadeFrom d version) where
  make := by
    rintro p ns ⟨s, hp⟩ hns -
    have he := (hp.mem_elementEntries hns).1
    exact ⟨⟨rfl, hd ns (Document.mem_namespaces he hns)⟩, _, he, ns, hns, rfl, rfl⟩
  refresh := by
    rintro p ns r ⟨s, hp⟩ hns hr hkey hversion
    have he := (hp.mem_elementEntries hns).1
    obtain ⟨hnamed, hmade⟩ := hr hversion
    exact ⟨hnamed.refresh (hd ns (Document.mem_namespaces he hns)) hkey _, hmade⟩

theorem stored_withDocument {d : Document} (hversion : s.versions.has version = true) {e : k.Entry}
    (he : e ∈ d.elementEntries k) {ns : String} (hns : k.namespace? e = some ns) :
    ∃ id, Put.Stored ⟨k, e, version⟩ (s.withDocument version d) id := by
  have hholds := holds_withDocument (d := d) hversion
  cases k with
  | classes => exact ⟨_, hholds.classes e he⟩
  | interfaces => exact ⟨_, hholds.interfaces e he⟩
  | functions =>
    refine ⟨_, stored_putAll (List.mem_append_right _ (List.mem_append_left _ ?_))⟩
    exact List.mem_map_of_mem he
  | classMethods | interfaceMethods | classProperties | aliases => cases hns

/-- Behind an import into a version without elements, all of its elements are made from the
document. -/
theorem madeFrom_withDocument {d : Document} (hversion : s.versions.has version = true)
    (hempty : ∀ k, s.elements k version = [])
    (hd : ∀ ns ∈ d.namespaces, storedNamespace ns ≠ some "") :
    (s.withDocument version d).EveryElement (MadeFrom d version) := by
  have hbefore : s.EveryElement (MadeFrom d version) := by
    intro k q hq r hr hversion
    have hmem := mem_elements.2 ⟨q, hq, hr, hversion⟩
    rw [hempty] at hmem
    cases hmem
  exact hbefore.withDocument (entryLaw_madeFrom hd) hversion fun s p hp => ⟨s, hp⟩

/-- The elements behind such an import are those that the entries name. -/
theorem covers_withDocument {d : Document} (hversion : s.versions.has version = true)
    (hempty : ∀ k, s.elements k version = [])
    (hd : ∀ ns ∈ d.namespaces, storedNamespace ns ≠ some "")
    (hnames : ∀ ns name, (ns, name) ∈ names ↔ ∃ e ∈ d.elementEntries k, ∃ n ∈ k.namespace? e,
      ns = storedNamespace n ∧ name = k.entryName e) :
    (s.withDocument version d).Covers k version names where
  every q hq r hr hrow := by
    obtain ⟨hnamed, hmade⟩ := madeFrom_withDocument hversion hempty hd k q hq r hr hrow
    exact ⟨hnamed, (hnames _ _).2 hmade⟩
  each ns name hmem := by
    obtain ⟨e, he, n, hn, rfl, rfl⟩ := (hnames _ _).1 hmem
    obtain ⟨id, row, hrow⟩ := stored_withDocument hversion he hn
    obtain ⟨r, hr⟩ := ElementKind.exists_element? hn row
    have hmem := Table.mem_of_at? hrow
    refine ⟨⟨id, row⟩, hmem, r, hr, ?_⟩
    -- The row has the key of the entry, and its namespace is not empty.
    have hkey : r.key = k.entryKey e version :=
      (ElementKind.key_of_element? hr).symm.trans (Table.key_of_at? hrow)
    rw [ElementKind.entryKey_of_namespace? hn] at hkey
    obtain ⟨hversion', hscope, hname⟩ := NaturalKey.mk.injEq .. ▸ hkey
    obtain ⟨hnamed, -⟩ := madeFrom_withDocument hversion hempty hd k _ hmem r hr hversion'
    have hne := hd n (Document.mem_namespaces he hn)
    exact ⟨hversion', ElementRow.eq_of_getD_eq hnamed.ns_ne hne hscope, hname⟩

end Store

/-! ## Declarations -/

section
open Php

/-- The declarations differ in their namespaces or short names. Namespaces are not taken for the
absence of one, and short names have no separators. -/
structure DistinctNames {α : Type} (ns : α → Option String) (name : α → String) (l : List α) :
    Prop where
  namespaces : ∀ a ∈ l, ∀ n ∈ ns a, IsNamespace n
  shortNames : ∀ a ∈ l, '\\' ∉ (name a).toList
  nodup : (l.map fun a => (ns a, name a)).Nodup

/-- The declarations of each kind differ in their names. -/
structure Php.Declarations.Distinct (ds : Declarations) : Prop where
  classes : DistinctNames DeclaredClass.ns DeclaredClass.name ds.classes
  interfaces : DistinctNames DeclaredInterface.ns DeclaredInterface.name ds.interfaces
  functions : DistinctNames DeclaredFunction.ns DeclaredFunction.name ds.functions

/-- The document has the entries of the declarations. -/
structure Document.Describes (d : Document) (ds : Declarations) : Prop where
  classes : d.classes = ds.classes.map DeclaredClass.entry
  interfaces : d.interfaces = ds.interfaces.map DeclaredInterface.entry
  functions : d.functions = ds.functions.map DeclaredFunction.entry

namespace DistinctNames

variable {α : Type} {ns : α → Option String} {name : α → String} {l : List α} {k : ElementKind}
  {entry : α → k.Entry} {d : Document}

/-- Declarations that differ in their names have entries of different keys. -/
theorem nodup_keys (h : DistinctNames ns name l) :
    (l.map fun a => declaredKey (documentNamespace (ns a)) (name a)).Nodup := by
  refine (List.Nodup.of_map _ h.nodup).map_on fun a ha b hb hkey => ?_
  obtain ⟨hscope, hname⟩ := Prod.mk.injEq .. ▸ hkey
  rw [storedNamespace_documentNamespace (h.namespaces a ha),
    storedNamespace_documentNamespace (h.namespaces b hb)] at hscope
  have hne : ∀ c ∈ l, ns c ≠ some "" := fun c hc heq => (h.namespaces c hc "" heq).ne_empty rfl
  have hns := ElementRow.eq_of_getD_eq (hne a ha) (hne b hb) hscope
  exact List.inj_on_of_nodup_map h.nodup ha hb (Prod.ext hns hname)

/-- What the entries name are the namespaces and short names of the declarations. -/
theorem mem_names_iff (h : DistinctNames ns name l) (hentries : d.elementEntries k = l.map entry)
    (hns : ∀ a, k.namespace? (entry a) = some (documentNamespace (ns a)))
    (hname : ∀ a, k.entryName (entry a) = name a) (n : Option String) (short : String) :
    (n, short) ∈ l.map (fun a => (ns a, name a)) ↔
      ∃ e ∈ d.elementEntries k, ∃ m ∈ k.namespace? e,
        n = storedNamespace m ∧ short = k.entryName e := by
  rw [hentries]
  constructor
  · intro hmem
    obtain ⟨a, ha, heq⟩ := List.mem_map.1 hmem
    obtain ⟨rfl, rfl⟩ := Prod.mk.injEq .. ▸ heq
    refine ⟨entry a, List.mem_map_of_mem ha, _, hns a, ?_, (hname a).symm⟩
    exact (storedNamespace_documentNamespace (h.namespaces a ha)).symm
  · rintro ⟨e, he, m, hm, rfl, rfl⟩
    obtain ⟨a, ha, rfl⟩ := List.mem_map.1 he
    obtain rfl := Option.some_inj.1 (hm.symm.trans (hns a))
    rw [storedNamespace_documentNamespace (h.namespaces a ha), hname]
    exact List.mem_map_of_mem ha

/-- None of them is stored as an empty namespace. -/
theorem storedNamespace_ne (h : DistinctNames ns name l) :
    ∀ n ∈ l.map fun a => documentNamespace (ns a), storedNamespace n ≠ some "" := by
  intro n hn heq
  obtain ⟨a, ha, rfl⟩ := List.mem_map.1 hn
  rw [storedNamespace_documentNamespace (h.namespaces a ha)] at heq
  exact (h.namespaces a ha "" heq).ne_empty rfl

/-- The names of declarations have no separators behind their namespaces. -/
theorem not_mem_snd (h : DistinctNames ns name l) :
    ∀ p ∈ l.map fun a => (ns a, name a), '\\' ∉ p.2.toList := by
  intro p hp
  obtain ⟨a, ha, rfl⟩ := List.mem_map.1 hp
  exact h.shortNames a ha

theorem perm_elements (h : DistinctNames ns name l) {s : Store} {version : Int}
    (hkeys : s.HasUniqueKeys) (hcovers : s.Covers k version (l.map fun a => (ns a, name a))) :
    ((s.elements k version).map fun r => (r.name, r.ns, r.shortName)).Perm
      (l.map fun a => (qualifiedName (ns a) (name a), ns a, name a)) := by
  have hperm := hcovers.perm hkeys h.nodup
  rwa [List.map_map] at hperm

theorem absoluteName_eq (h : DistinctNames ns name l) {a : α} (ha : a ∈ l) :
    absoluteName (qualifiedName (ns a) (name a)) = qualifiedName (ns a) (name a) :=
  absoluteName_qualifiedName (h.namespaces a ha) (h.shortNames a ha)

end DistinctNames

/-- The version has one row for each declaration, in its namespace and under its name. Classes and
interfaces that name another one of them are linked to its row. -/
structure Store.HasDeclarations (s : Store) (version : Int) (ds : Declarations) : Prop where
  classes : ((s.elements .classes version).map fun r => (r.name, r.ns, r.shortName)).Perm
    (ds.classes.map fun c => (qualifiedName c.ns c.name, c.ns, c.name))
  interfaces : ((s.elements .interfaces version).map fun r => (r.name, r.ns, r.shortName)).Perm
    (ds.interfaces.map fun i => (qualifiedName i.ns i.name, i.ns, i.name))
  functions : ((s.elements .functions version).map fun r => (r.name, r.ns, r.shortName)).Perm
    (ds.functions.map fun f => (qualifiedName f.ns f.name, f.ns, f.name))
  parent : ∀ c ∈ ds.classes, ∀ c' ∈ ds.classes, (c'.ns, c'.name) ≠ (c.ns, c.name) →
    c.parent = some (qualifiedName c'.ns c'.name) → qualifiedName c'.ns c'.name ≠ "" →
      ∃ r ∈ s.classes.records, ∃ r' ∈ s.classes.records, r.row.StandsAt version c.ns c.name ∧
        r'.row.StandsAt version c'.ns c'.name ∧ r.row.parent = some r'.id
  implements : ∀ c ∈ ds.classes, ∀ i ∈ ds.interfaces, qualifiedName i.ns i.name ∈ c.interfaces →
    ∃ r ∈ s.classes.records, ∃ r' ∈ s.interfaces.records, r.row.StandsAt version c.ns c.name ∧
      r'.row.StandsAt version i.ns i.name ∧ (r.id, r'.id) ∈ s.classInterfaces.pairs
  parents : ∀ i ∈ ds.interfaces, ∀ i' ∈ ds.interfaces, (i'.ns, i'.name) ≠ (i.ns, i.name) →
    qualifiedName i'.ns i'.name ∈ i.parents →
      ∃ r ∈ s.interfaces.records, ∃ r' ∈ s.interfaces.records,
        r.row.StandsAt version i.ns i.name ∧ r'.row.StandsAt version i'.ns i'.name ∧
          (r.id, r'.id) ∈ s.interfaceParents.pairs

section
variable {s : Store} {version : Int} {ds : Declarations} {d : Document}

theorem Document.Describes.storedNamespace_ne (hd : d.Describes ds) (h : ds.Distinct) :
    ∀ n ∈ d.namespaces, storedNamespace n ≠ some "" := by
  intro n hn
  unfold Document.namespaces at hn
  rw [hd.classes, hd.interfaces, hd.functions, List.map_map, List.map_map, List.map_map,
    List.mem_append, List.mem_append] at hn
  rcases hn with (hn | hn) | hn
  · exact h.classes.storedNamespace_ne n hn
  · exact h.interfaces.storedNamespace_ne n hn
  · exact h.functions.storedNamespace_ne n hn

/-- Rows that stand at different places have different ids. -/
theorem ElementRow.StandsAt.id_ne {α : Type} {t : Table α} (element : α → ElementRow)
    {r r' : Record α} (hr : r ∈ t.records) (hr' : r' ∈ t.records) {ns ns' : Option String}
    {name name' : String} (h : (element r.row).StandsAt version ns name)
    (h' : (element r'.row).StandsAt version ns' name') (hne : (ns', name') ≠ (ns, name)) :
    r'.id ≠ r.id := by
  intro hid
  rw [Table.eq_of_id_eq hr' hr hid] at h'
  exact hne (Prod.ext (h'.ns.symm.trans h.ns) (h'.shortName.symm.trans h.shortName))

namespace Store

variable (hversion : s.versions.has version = true) (hempty : ∀ k, s.elements k version = [])
  (hd : d.Describes ds) (hds : ds.Distinct)

section
include hversion hempty hd hds

theorem covers_classes : (s.withDocument version d).Covers .classes version
    (ds.classes.map fun c => (c.ns, c.name)) :=
  covers_withDocument hversion hempty (hd.storedNamespace_ne hds)
    (hds.classes.mem_names_iff hd.classes (fun _ => rfl) fun _ => rfl)

theorem covers_interfaces : (s.withDocument version d).Covers .interfaces version
    (ds.interfaces.map fun i => (i.ns, i.name)) :=
  covers_withDocument hversion hempty (hd.storedNamespace_ne hds)
    (hds.interfaces.mem_names_iff hd.interfaces (fun _ => rfl) fun _ => rfl)

theorem covers_functions : (s.withDocument version d).Covers .functions version
    (ds.functions.map fun f => (f.ns, f.name)) :=
  covers_withDocument hversion hempty (hd.storedNamespace_ne hds)
    (hds.functions.mem_names_iff hd.functions (fun _ => rfl) fun _ => rfl)

end

variable (hkeys : (s.withDocument version d).HasUniqueKeys)
include hversion hempty hd hds hkeys

/-- The entry of a class is the last one of its key, so its row is linked as it says. -/
theorem exists_linksClass {c : DeclaredClass} (hc : c ∈ ds.classes) :
    ∃ r, (s.withDocument version d).LinksClass version c.entry r ∧
      r.row.StandsAt version c.ns c.name := by
  have hnodup : (d.classes.map ClassEntry.key).Nodup := by
    rw [hd.classes, List.map_map]
    exact hds.classes.nodup_keys
  have hmem : c.entry ∈ d.classes := hd.classes ▸ List.mem_map_of_mem hc
  obtain ⟨r, hr⟩ := (linksDocument_withDocument hkeys).classes _ _ (lastWith?_of_nodup hnodup hmem)
  have hcovers := covers_classes hversion hempty hd hds
  exact ⟨r, hr, hcovers.standsAt hr.only.1 rfl (hds.classes.namespaces c hc) hr.only.2.1⟩

theorem exists_linksInterface {i : DeclaredInterface} (hi : i ∈ ds.interfaces) :
    ∃ r, (s.withDocument version d).LinksInterface version i.entry r ∧
      r.row.StandsAt version i.ns i.name := by
  have hnodup : (d.interfaces.map InterfaceEntry.key).Nodup := by
    rw [hd.interfaces, List.map_map]
    exact hds.interfaces.nodup_keys
  have hmem : i.entry ∈ d.interfaces := hd.interfaces ▸ List.mem_map_of_mem hi
  obtain ⟨r, hr⟩ :=
    (linksDocument_withDocument hkeys).interfaces _ _ (lastWith?_of_nodup hnodup hmem)
  have hcovers := covers_interfaces hversion hempty hd hds
  exact ⟨r, hr, hcovers.standsAt hr.only.1 rfl (hds.interfaces.namespaces i hi) hr.only.2.1⟩

/-- Behind an import into a version without elements, the version has what was declared. -/
theorem hasDeclarations_withDocument : (s.withDocument version d).HasDeclarations version ds := by
  have hclasses := covers_classes hversion hempty hd hds
  have hinterfaces := covers_interfaces hversion hempty hd hds
  have hclass {c : DeclaredClass} := exists_linksClass hversion hempty hd hds hkeys (c := c)
  have hinterface {i : DeclaredInterface} :=
    exists_linksInterface hversion hempty hd hds hkeys (i := i)
  refine ⟨hds.classes.perm_elements hkeys hclasses, hds.interfaces.perm_elements hkeys hinterfaces,
    hds.functions.perm_elements hkeys (covers_functions hversion hempty hd hds), ?_, ?_, ?_⟩
  · intro c hc c' hc' hother hparent hname
    obtain ⟨r, hr, hstands⟩ := hclass hc
    obtain ⟨r', hr', hstands'⟩ := hclass hc'
    refine ⟨r, hr.only.1, r', hr'.only.1, hstands, hstands', (hr.parent r'.id).2 ?_⟩
    -- A class without a parent has an empty one in its entry, hence the condition on the name.
    have hentry : c.entry.parent = qualifiedName c'.ns c'.name :=
      congrArg (Option.getD · "") hparent
    rw [hentry, hds.classes.absoluteName_eq hc']
    refine ⟨hname, ElementRow.StandsAt.id_ne (·.toElementRow) hr.only.1 hr'.only.1 hstands hstands'
      hother, ?_⟩
    exact hclasses.lowest hkeys hds.classes.not_mem_snd (·.toElementRow) (fun _ => rfl)
      hr'.only.1 hstands'
  · intro c hc i hi hname
    obtain ⟨r, hr, hstands⟩ := hclass hc
    obtain ⟨r', hr', hstands'⟩ := hinterface hi
    refine ⟨r, hr.only.1, r', hr'.only.1, hstands, hstands', (hr.implements r'.id).2 ?_⟩
    refine ⟨_, hname, ?_⟩
    rw [hds.interfaces.absoluteName_eq hi]
    exact hinterfaces.lowest hkeys hds.interfaces.not_mem_snd id (fun _ => rfl)
      hr'.only.1 hstands'
  · intro i hi i' hi' hother hname
    obtain ⟨r, hr, hstands⟩ := hinterface hi
    obtain ⟨r', hr', hstands'⟩ := hinterface hi'
    refine ⟨r, hr.only.1, r', hr'.only.1, hstands, hstands', (hr.parents r'.id).2 ?_⟩
    refine ⟨?_, _, hname, ?_⟩
    · exact ElementRow.StandsAt.id_ne id hr.only.1 hr'.only.1 hstands hstands' hother
    · rw [hds.interfaces.absoluteName_eq hi']
      exact hinterfaces.lowest hkeys hds.interfaces.not_mem_snd id (fun _ => rfl)
        hr'.only.1 hstands'

end Store
end

/-! ## Imports of what source files declare -/

/-- The document of one file has the entries of what the file declares. -/
theorem Php.DeclaredFile.describes (key : String) (f : DeclaredFile) :
    Document.Describes { files := Dictionary.ofList [(key, f.entry)] } f.declarations := by
  refine ⟨?_, ?_, ?_⟩ <;> exact List.append_nil _

/-- An import of what is declared into a version without elements makes one row of each class,
interface and function, in its namespace and under its name, and a class or interface that names
another one is linked to it. No class is the parent of another one under an empty name. -/
theorem Reachable.import_declarations {s : Store} (h : Reachable s) {version : Int}
    (hversion : s.versions.has version = true) (hempty : ∀ k, s.elements k version = [])
    {ds : Declarations} (hds : ds.Distinct) {d : Document} (hd : d.Describes ds) :
    ∃ s', (Change.importInto version d).apply s = (.ok d.counts, s') ∧
      (Change.importDocument version d).apply s = (.ok d.counts, s') ∧
        s'.HasDeclarations version ds :=
  ⟨_, Change.importInto_apply hversion, Change.importDocument_apply hversion,
    Store.hasDeclarations_withDocument hversion hempty hd hds
      (h.hasUniqueKeys_withDocument hversion)⟩

/-- A file with elements that share their short names but not their namespaces. -/
def Php.DeclaredFile.animals : DeclaredFile where
  declarations :=
    { classes := [
        { name := "Cat", ns := some "Animals", parent := some "Animal", interfaces := ["Moves"] },
        { name := "Animal", ns := some "Animals" },
        { name := "Animal" }]
      interfaces := [
        { name := "Moves" },
        { name := "Walks", ns := some "Animals", parents := ["Moves"] }]
      functions := [{ name := "feed" }, { name := "feed", ns := some "Animals" }] }

theorem Reachable.import_declarations_animals :
    let d : Document :=
      { files := Dictionary.ofList [("animals.php", Php.DeclaredFile.animals.entry)] }
    ∃ s', (Change.importInto 1 d).apply .oneVersion = (.ok d.counts, s') ∧
      (Change.importDocument 1 d).apply .oneVersion = (.ok d.counts, s') ∧
        s'.HasDeclarations 1 Php.DeclaredFile.animals.declarations := by
  have hempty : ∀ k, Store.oneVersion.elements k 1 = [] := by
    intro k
    cases k <;> decide +kernel
  have hds : Php.DeclaredFile.animals.declarations.Distinct :=
    ⟨⟨by decide +kernel, by decide +kernel, by decide +kernel⟩,
      ⟨by decide +kernel, by decide +kernel, by decide +kernel⟩,
      ⟨by decide +kernel, by decide +kernel, by decide +kernel⟩⟩
  exact reachable_oneVersion.import_declarations (by decide +kernel) hempty hds
    (Php.DeclaredFile.animals.describes "animals.php")

/-- The classes behind an import of some declared ones into an empty version. -/
def classesBehind (cs : List DeclaredClass) : List (Record ClassRow) :=
  let d : Document :=
    { files := Dictionary.ofList [("a.php", { classes := cs.map DeclaredClass.entry })] }
  (Store.oneVersion.runAll [.importDocument 1 d]).classes.records

/-- A class of a namespace that is called `global` is taken for the one of its name outside every
namespace. The empty name is no parent, even if a class has it. -/
theorem import_global :
    (classesBehind [{ name := "Table" }, { name := "Table", ns := some "global" }]).map
        (fun r => (r.row.name, r.row.ns, r.row.shortName)) = [("Table", none, "Table")] ∧
      (classesBehind [{ name := "" }, { name := "Cat", parent := some "" }]).map
        (fun r => (r.row.name, r.row.parent)) = [("", none), ("Cat", none)] := by
  decide +kernel

end
end ApiCatalog
