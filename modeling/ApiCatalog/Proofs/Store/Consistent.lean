import ApiCatalog.Proofs.Store.Inside
import ApiCatalog.Proofs.Store.Owned

/-!
# Reachable stores are consistent

Natural keys are unique in every table, and links do not leave the version that they start in
(`Store.Consistent`). Software and versions are unique because registering looks first
(`Store.Registered`), elements because a row is only added where none of its key is found, and links
because a name is only looked up in one version.

The name of a class or interface is written from its namespace and its short name, and the part of
it behind the last separator is the short name, unless that has separators itself. So elements that
share their name share their key, and a name stands for one element at most (`Store.HasNames`).
-/

namespace ApiCatalog

/-! ## Names -/

/-- Read from its end up to a separator, a list gives its last part. -/
theorem takeWhile_reverse {α : Type} [BEq α] [LawfulBEq α] {sep : α} {front part : List α}
    (h : sep ∉ part) : (front ++ sep :: part).reverse.takeWhile (· != sep) = part.reverse := by
  have hpart : ∀ c ∈ part.reverse, (c != sep) = true := by
    intro c hc
    rw [bne_iff_ne]
    intro heq
    exact h (heq ▸ List.mem_reverse.1 hc)
  rw [List.reverse_append, List.reverse_cons, List.append_assoc,
    List.takeWhile_append_of_pos hpart]
  simp

/-- Without separators in them, short names are the last parts of qualified names. -/
theorem qualifiedName_inj {ns ns' : Option String} {short short' : String}
    (hshort : '\\' ∉ short.toList) (hshort' : '\\' ∉ short'.toList)
    (h : qualifiedName ns short = qualifiedName ns' short') : ns = ns' ∧ short = short' := by
  have hsep : ∀ ns short, '\\' ∈ (qualifiedName (some ns) short).toList := by
    intro ns short
    simp [qualifiedName]
  -- A namespace puts a separator into the name, and a short name has none.
  cases ns with
  | none =>
    cases ns' with
    | none => exact ⟨rfl, h⟩
    | some ns' =>
      have hmem := hsep ns' short'
      rw [← h] at hmem
      exact absurd hmem hshort
  | some ns =>
    cases ns' with
    | none =>
      have hmem := hsep ns short
      rw [h] at hmem
      exact absurd hmem hshort'
    | some ns' =>
      have hlists : ns.toList ++ '\\' :: short.toList = ns'.toList ++ '\\' :: short'.toList := by
        simpa [qualifiedName] using congrArg String.toList h
      -- Behind the last separator stands the short name.
      have hlast : short.toList = short'.toList := by
        have hparts := congrArg (fun l => l.reverse.takeWhile (· != '\\')) hlists
        rw [takeWhile_reverse hshort, takeWhile_reverse hshort'] at hparts
        exact List.reverse_inj.1 hparts
      rw [hlast] at hlists
      have hfront := List.append_cancel_right hlists
      exact ⟨congrArg some (String.toList_inj.1 hfront), String.toList_inj.1 hlast⟩

namespace ElementRow

/-- The name is the short name under the namespace, where no namespace is as good as an empty one. -/
def HasName (r : ElementRow) : Prop :=
  ∃ ns, r.name = qualifiedName ns r.shortName ∧ ns.getD "" = r.ns.getD ""

/-- Rows that share their name share their key. -/
theorem HasName.key_eq {r r' : ElementRow} (h : r.HasName) (h' : r'.HasName)
    (hshort : '\\' ∉ r.shortName.toList) (hshort' : '\\' ∉ r'.shortName.toList)
    (hname : r.nameKey = r'.nameKey) : r.key = r'.key := by
  obtain ⟨ns, hr, hns⟩ := h
  obtain ⟨ns', hr', hns'⟩ := h'
  obtain ⟨hversion, heq⟩ := Prod.mk.injEq .. ▸ hname
  rw [hr, hr'] at heq
  obtain ⟨rfl, hshorts⟩ := qualifiedName_inj hshort hshort' heq
  unfold key
  rw [hversion, ← hns, ← hns', hshorts]

theorem hasName_make (name ns : String) (d : Docblock) (version : Int) :
    (make name ns d version).HasName :=
  ⟨storedNamespace ns, rfl, rfl⟩

/-- An entry of the same key writes the name of the same namespace. -/
theorem hasName_refresh {r : ElementRow} {name ns : String} {version : Int} (d : Docblock)
    (h : r.key = ⟨version, (storedNamespace ns).getD "", name⟩) : (r.refresh name ns d).HasName := by
  obtain ⟨-, hscope, hname⟩ := NaturalKey.mk.injEq .. ▸ h
  refine ⟨storedNamespace ns, ?_, hscope.symm⟩
  show qualifiedName (storedNamespace ns) name = qualifiedName (storedNamespace ns) r.shortName
  rw [hname]

end ElementRow

/-- Where elements are told apart by their keys, they are by their names, unless short names have
separators in them. -/
theorem Table.HasUniqueKeys.nameKey {α : Type} {t : Table α} {element : α → ElementRow}
    (hkeys : Table.HasUniqueKeys (fun row => (element row).key) t)
    (hnames : ∀ r ∈ t.records, (element r.row).HasName)
    (hshort : ∀ r ∈ t.records, '\\' ∉ (element r.row).shortName.toList) :
    Table.HasUniqueKeys (fun row => (element row).nameKey) t := by
  intro r hr r' hr' hname
  have hkey := (hnames r hr).key_eq (hnames r' hr') (hshort r hr) (hshort r' hr') hname
  exact hkeys r hr r' hr' hkey

namespace Store

variable {s s' : Store}

/-- Classes and interfaces have the names that their namespaces and short names make. -/
structure HasNames (s : Store) : Prop where
  classes : ∀ r ∈ s.classes.records, r.row.toElementRow.HasName
  interfaces : ∀ r ∈ s.interfaces.records, r.row.HasName

namespace HasNames

theorem empty : HasNames {} where
  classes r hr := by cases hr
  interfaces r hr := by cases hr

theorem put (h : s.HasNames) (p : Put) : (s.put p).HasNames := by
  obtain ⟨k, e, owner⟩ := p
  cases k with
  | classes =>
    refine ⟨fun r hr => ?_, h.interfaces⟩
    have hwrite : r ∈ (s.classes.write (Put.write ⟨.classes, e, owner⟩)).records := hr
    rcases Table.mem_write_cases hwrite with rfl | ⟨q, hq, hkey, rfl⟩ | hmem
    · exact ElementRow.hasName_make _ _ _ _
    · exact ElementRow.hasName_refresh _ hkey
    · exact h.classes r hmem
  | interfaces =>
    refine ⟨h.classes, fun r hr => ?_⟩
    have hwrite : r ∈ (s.interfaces.write (Put.write ⟨.interfaces, e, owner⟩)).records := hr
    rcases Table.mem_write_cases hwrite with rfl | ⟨q, hq, hkey, rfl⟩ | hmem
    · exact ElementRow.hasName_make _ _ _ _
    · exact ElementRow.hasName_refresh _ hkey
    · exact h.interfaces r hmem
  | classMethods | interfaceMethods | classProperties | functions | aliases =>
    exact ⟨h.classes, h.interfaces⟩

/-- What a class extends is no part of its name. -/
theorem linkClass (h : s.HasNames) (id version : Int) (e : ClassEntry) :
    (s.linkClass id version e).HasNames := by
  refine ⟨fun r hr => ?_, h.interfaces⟩
  obtain ⟨q, hq, rfl⟩ := mem_classes_linkClass.1 hr
  dsimp only
  split <;> exact h.classes q hq

theorem deleteVersion (h : s.HasNames) (version : Int) : (s.deleteVersion version).HasNames where
  classes r hr := by
    obtain ⟨q, hq, -, rfl⟩ := mem_deleteVersion_classes.1 hr
    exact h.classes q hq
  interfaces r hr := h.interfaces r ((mem_deleteVersion_table (k := .interfaces) nofun).1 hr).1

theorem step (hstep : Step s s') (h : s.HasNames) : s'.HasNames := by
  cases hstep with
  | addSoftware row hslug hnew => exact ⟨h.classes, h.interfaces⟩
  | addVersion row hsoftware hnew => exact ⟨h.classes, h.interfaces⟩
  | deleteVersion version => exact h.deleteVersion version
  | put p howner => exact h.put p
  | linkClass r e hr => exact h.linkClass _ _ _
  | linkInterface r e hr => exact ⟨h.classes, h.interfaces⟩

end HasNames

/-! ## Software and versions -/

/-- Software is told apart by its name and by its slug, which is not empty, and a version by its
software and what it is called. -/
structure Registered (s : Store) : Prop where
  names : Table.HasUniqueKeys Software.name s.software
  slugs : Table.HasUniqueKeys Software.slug s.software
  slug_ne : ∀ r ∈ s.software.records, r.row.slug ≠ ""
  versions : Table.HasUniqueKeys (fun v : Version => (v.software, v.version)) s.versions
  versionSoftware : ∀ r ∈ s.versions.records, s.software.has r.row.software = true

namespace Registered

theorem empty : Registered {} where
  names := .empty
  slugs := .empty
  slug_ne r hr := by cases hr
  versions := .empty
  versionSoftware r hr := by cases hr

theorem congr (h : s.Registered) (hsoftware : s'.software = s.software)
    (hversions : s'.versions = s.versions) : s'.Registered where
  names := by rw [hsoftware]; exact h.names
  slugs := by rw [hsoftware]; exact h.slugs
  slug_ne := by rw [hsoftware]; exact h.slug_ne
  versions := by rw [hversions]; exact h.versions
  versionSoftware := by rw [hsoftware, hversions]; exact h.versionSoftware

theorem step (hstep : Step s s') (h : s.Registered) : s'.Registered := by
  cases hstep with
  | addSoftware row hslug hnew =>
    refine ⟨h.names.add fun r hr => (hnew r hr).1, h.slugs.add fun r hr => (hnew r hr).2,
      fun r hr => ?_, h.versions, fun r hr => Table.has_add (h.versionSoftware r hr)⟩
    rcases Table.mem_add.1 hr with hr | rfl
    · exact h.slug_ne r hr
    · exact hslug
  | addVersion row hsoftware hnew =>
    refine ⟨h.names, h.slugs, h.slug_ne, h.versions.add fun r hr heq => ?_, fun r hr => ?_⟩
    · exact hnew r hr (Prod.mk.injEq .. ▸ heq)
    · rcases Table.mem_add.1 hr with hr | rfl
      · exact h.versionSoftware r hr
      · exact hsoftware
  | deleteVersion version =>
    refine ⟨?_, ?_, ?_, ?_, fun r hr => ?_⟩
    · rw [deleteVersion_software]; exact h.names
    · rw [deleteVersion_software]; exact h.slugs
    · rw [deleteVersion_software]; exact h.slug_ne
    · rw [deleteVersion_versions]; exact h.versions.keep _
    · rw [deleteVersion_versions] at hr
      rw [deleteVersion_software]
      exact h.versionSoftware r (Table.mem_keep.1 hr).1
  | put p howner => exact h.congr (s.put_software p) (s.put_versions p)
  | linkClass r e hr => exact h.congr rfl rfl
  | linkInterface r e hr => exact h.congr rfl rfl

end Registered

/-! ## All of it -/

/-- Natural keys are unique, what rows refer to is there, and links lead to other rows of one
version. Where short names have no separators in them, a name stands for one row. -/
structure Consistent (s : Store) : Prop where
  registered : s.Registered
  elements : ∀ k, Table.HasUniqueKeys k.key (s.table k)
  owners : s.HasOwners
  parents : ∀ r ∈ s.classes.records, ∀ p, r.row.parent = some p →
    p ≠ r.id ∧ ∃ q ∈ s.classes.records, q.id = p ∧ q.row.version = r.row.version
  classInterfaces : ∀ l ∈ s.classInterfaces.pairs, ∃ c ∈ s.classes.records,
    ∃ i ∈ s.interfaces.records, l = (c.id, i.id) ∧ c.row.version = i.row.version
  interfaceParents : ∀ l ∈ s.interfaceParents.pairs, ∃ i ∈ s.interfaces.records,
    ∃ p ∈ s.interfaces.records, l = (i.id, p.id) ∧ p.id ≠ i.id ∧ i.row.version = p.row.version
  classInterfacesOnce : s.classInterfaces.pairs.Nodup
  interfaceParentsOnce : s.interfaceParents.pairs.Nodup
  classNames : (∀ r ∈ s.classes.records, '\\' ∉ r.row.shortName.toList) →
    Table.HasUniqueKeys ClassRow.nameKey s.classes ∧
      ∀ version name r, s.classNamed? version name = some r ↔
        r ∈ s.classes.records ∧ r.row.version = version ∧ r.row.name = absoluteName name
  interfaceNames : (∀ r ∈ s.interfaces.records, '\\' ∉ r.row.shortName.toList) →
    Table.HasUniqueKeys ElementRow.nameKey s.interfaces ∧
      ∀ version name r, s.interfaceNamed? version name = some r ↔
        r ∈ s.interfaces.records ∧ r.row.version = version ∧ r.row.name = absoluteName name

end Store

namespace Reachable

variable {s : Store}

theorem registered (h : Reachable s) : s.Registered := h.of_step .empty fun _ _ => .step

theorem hasNames (h : Reachable s) : s.HasNames := h.of_step .empty fun _ _ => .step

/-- In a reachable store natural keys are unique and links stay inside one version. -/
theorem consistent (h : Reachable s) : s.Consistent where
  registered := h.registered
  elements := h.hasUniqueKeys.elements
  owners := h.hasOwners
  parents r hr p hp := by
    obtain ⟨hne, version, hself, hparent⟩ := h.linksInside.parents r.id p ⟨r, hr, rfl, hp⟩
    have hversion : some r.row.version = some version :=
      (Store.versionOf?_class_eq_some_iff.2 ⟨r, hr, rfl, rfl⟩).symm.trans hself
    rw [← Option.some_inj.1 hversion, Store.versionOf?_class_eq_some_iff] at hparent
    exact ⟨hne, hparent⟩
  classInterfaces l hl := by
    obtain ⟨version, hclass, hinterface⟩ := h.linksInside.classInterfaces l hl
    obtain ⟨c, hc, hcid, hcversion⟩ := Store.versionOf?_class_eq_some_iff.1 hclass
    obtain ⟨i, hi, hiid, hiversion⟩ := Store.versionOf?_interface_eq_some_iff.1 hinterface
    exact ⟨c, hc, i, hi, Prod.ext hcid.symm hiid.symm, hcversion.trans hiversion.symm⟩
  interfaceParents l hl := by
    obtain ⟨hne, version, hself, hparent⟩ := h.linksInside.interfaceParents l hl
    obtain ⟨i, hi, hiid, hiversion⟩ := Store.versionOf?_interface_eq_some_iff.1 hself
    obtain ⟨p, hp, hpid, hpversion⟩ := Store.versionOf?_interface_eq_some_iff.1 hparent
    refine ⟨i, hi, p, hp, Prod.ext hiid.symm hpid.symm, ?_, hiversion.trans hpversion.symm⟩
    rw [hpid, hiid]
    exact hne
  classInterfacesOnce := s.classInterfaces.nodup
  interfaceParentsOnce := s.interfaceParents.nodup
  classNames hshort := by
    have hnames : Table.HasUniqueKeys ClassRow.nameKey s.classes :=
      Table.HasUniqueKeys.nameKey (h.hasUniqueKeys.elements .classes) h.hasNames.classes hshort
    refine ⟨hnames, fun version name r => ?_⟩
    rw [Store.classNamed?_eq, hnames.at?_eq_some_iff]
    exact and_congr_right fun _ => Prod.ext_iff
  interfaceNames hshort := by
    have hnames : Table.HasUniqueKeys ElementRow.nameKey s.interfaces :=
      Table.HasUniqueKeys.nameKey (h.hasUniqueKeys.elements .interfaces) h.hasNames.interfaces
        hshort
    refine ⟨hnames, fun version name r => ?_⟩
    rw [Store.interfaceNamed?_eq, hnames.at?_eq_some_iff]
    exact and_congr_right fun _ => Prod.ext_iff

/-- It is so behind the import of two classes, one of which extends the other and implements an
interface. -/
theorem consistent_animals :
    let s := Store.oneVersion.runAll [.importDocument 1 .animals]
    s.classes.records.map (fun r => (r.row.name, r.row.parent)) =
        [("Animals\\Cat", some 2), ("Animals\\Animal", none)] ∧
      s.classInterfaces.pairs = [(1, 1)] ∧ s.Consistent :=
  ⟨by decide +kernel, by decide +kernel, consistent (reachable_oneVersion.runAll _)⟩

end Reachable
end ApiCatalog
