import ApiCatalog.Proofs.Store.Declared
import ApiCatalog.Proofs.Store.Owned
import ApiCatalog.Proofs.Store.Version

/-!
# What an import leaves alone

A put touches one element: its row, its deprecation, its arguments. A link touches one class or
interface: its parent and the links that lead from it. All else is as it was
(`Store.SameOutside`). Ids of different kinds are given independently, so what is touched is always
an `Owner`, a kind and an id, and never an id alone.

All that an import touches are elements that the document declares (`Store.Declares`), and so behind
the import everything but these is as before (`Store.sameOutside_withDocument`).
-/

namespace ApiCatalog

/-! ## References of other elements -/

section
variable {o : Owner} {d : Docblock}

/-- A deprecation of another element stays as it is. -/
theorem mem_withDeprecation_iff {t : Table DeprecationRow} {r : Record DeprecationRow}
    (h : r.row.key ≠ o.key) : r ∈ (withDeprecation o d t).records ↔ r ∈ t.records := by
  unfold withDeprecation
  split
  · rw [Table.mem_keep, Bool.not_eq_true', ← Bool.not_eq_true, DeprecationRow.isOf_iff]
    exact and_iff_left h
  · exact Table.mem_write_iff_of_key h

/-- An argument of another element stays as it is. -/
theorem mem_withArguments_iff {arguments : List ArgumentEntry} {t : Table ArgumentRow}
    {r : Record ArgumentRow} (h : r.row.key.1 ≠ o.key) :
    r ∈ (withArguments o arguments d t).records ↔ r ∈ t.records := by
  have hother : r.row.isOf o = false := by
    rw [← Bool.not_eq_true, ArgumentRow.isOf_iff]
    exact h
  have hwrites : r ∈ (t.writeAll (arguments.map (argumentWrite o d))).records ↔ r ∈ t.records := by
    induction arguments generalizing t with
    | nil => exact Iff.rfl
    | cons a arguments ih =>
      refine (ih (t := t.write (argumentWrite o d a))).trans ?_
      exact Table.mem_write_iff_of_key fun hkey => h (congrArg Prod.fst hkey)
  unfold withArguments
  rw [Table.mem_keep, hwrites, hother]
  simp

end

namespace Store

variable {s s' s'' : Store} {touched touched' : Owner → Prop}

/-- Software and versions are the same, elements are kept, and rows, references and links of the
elements that are not touched are the same. -/
structure SameOutside (touched : Owner → Prop) (s s' : Store) : Prop where
  software : s'.software = s.software
  versions : s'.versions = s.versions
  keeps : s.KeepsElements s'
  elements : ∀ (k : ElementKind) (r : Record k.Row), ¬touched ⟨k, r.id⟩ →
    (r ∈ (s'.table k).records ↔ r ∈ (s.table k).records)
  deprecations : ∀ r : Record DeprecationRow, (∀ o, r.row.owner? = some o → ¬touched o) →
    (r ∈ s'.deprecations.records ↔ r ∈ s.deprecations.records)
  arguments : ∀ r : Record ArgumentRow, (∀ o, r.row.owner? = some o → ¬touched o) →
    (r ∈ s'.arguments.records ↔ r ∈ s.arguments.records)
  classInterfaces : ∀ l : Int × Int, ¬touched ⟨.classes, l.1⟩ →
    (l ∈ s'.classInterfaces.pairs ↔ l ∈ s.classInterfaces.pairs)
  interfaceParents : ∀ l : Int × Int, ¬touched ⟨.interfaces, l.1⟩ →
    (l ∈ s'.interfaceParents.pairs ↔ l ∈ s.interfaceParents.pairs)

namespace SameOutside

theorem refl (touched : Owner → Prop) (s : Store) : s.SameOutside touched s where
  software := rfl
  versions := rfl
  keeps := .refl s
  elements _ _ _ := Iff.rfl
  deprecations _ _ := Iff.rfl
  arguments _ _ := Iff.rfl
  classInterfaces _ _ := Iff.rfl
  interfaceParents _ _ := Iff.rfl

/-- Where more is touched, less has to be the same. -/
theorem mono (h : s.SameOutside touched s') (htouched : ∀ o, touched o → touched' o) :
    s.SameOutside touched' s' where
  software := h.software
  versions := h.versions
  keeps := h.keeps
  elements k r hr := h.elements k r fun ht => hr (htouched _ ht)
  deprecations r hr := h.deprecations r fun o ho ht => hr o ho (htouched o ht)
  arguments r hr := h.arguments r fun o ho ht => hr o ho (htouched o ht)
  classInterfaces l hl := h.classInterfaces l fun ht => hl (htouched _ ht)
  interfaceParents l hl := h.interfaceParents l fun ht => hl (htouched _ ht)

theorem trans (h : s.SameOutside touched s') (h' : s'.SameOutside touched s'') :
    s.SameOutside touched s'' where
  software := h'.software.trans h.software
  versions := h'.versions.trans h.versions
  keeps := h.keeps.trans h'.keeps
  elements k r hr := (h'.elements k r hr).trans (h.elements k r hr)
  deprecations r hr := (h'.deprecations r hr).trans (h.deprecations r hr)
  arguments r hr := (h'.arguments r hr).trans (h.arguments r hr)
  classInterfaces l hl := (h'.classInterfaces l hl).trans (h.classInterfaces l hl)
  interfaceParents l hl := (h'.interfaceParents l hl).trans (h.interfaceParents l hl)

/-! ## Puts and links -/

/-- A put touches the element of its entry. -/
theorem put (s : Store) (p : Put) : s.SameOutside (· = ⟨p.kind, s.idOf p⟩) (s.put p) where
  software := s.put_software p
  versions := s.put_versions p
  keeps := .put s p
  -- Only the table of its own kind is written, and in it only the row with its id.
  elements k r hr := by
    by_cases hkind : k = p.kind
    · subst hkind
      rw [put_table]
      exact Table.mem_write_iff fun hid => hr (congrArg (Owner.mk p.kind) hid)
    · rw [put_table_of_ne s p hkind]
  deprecations r hr := by
    rw [put_deprecations]
    split
    · next htakes =>
      refine mem_withDeprecation_iff fun hkey => ?_
      exact hr _ (DeprecationRow.owner?_eq_some_iff.2 ⟨htakes, hkey⟩) rfl
    · exact Iff.rfl
  arguments r hr := by
    rw [put_arguments]
    split
    · next htakes =>
      refine mem_withArguments_iff fun hkey => ?_
      exact hr _ (ArgumentRow.owner?_eq_some_iff.2 ⟨htakes, hkey⟩) rfl
    · exact Iff.rfl
  classInterfaces l _ := by rw [put_classInterfaces]
  interfaceParents l _ := by rw [put_interfaceParents]

theorem linkClass (s : Store) (id version : Int) (e : ClassEntry) :
    s.SameOutside (· = ⟨.classes, id⟩) (s.linkClass id version e) where
  software := rfl
  versions := rfl
  keeps := .linkClass s id version e
  elements k r hr := by
    cases k with
    | classes => exact Table.mem_update_iff fun hid => hr (congrArg (Owner.mk .classes) hid)
    | interfaces | classMethods | interfaceMethods | classProperties | functions | aliases =>
      exact Iff.rfl
  deprecations _ _ := Iff.rfl
  arguments _ _ := Iff.rfl
  classInterfaces l hl := by
    rw [classInterfaces_linkClass]
    exact Links.mem_redirect_of_ne fun hid => hl (congrArg (Owner.mk .classes) hid)
  interfaceParents _ _ := Iff.rfl

theorem linkInterface (s : Store) (id version : Int) (e : InterfaceEntry) :
    s.SameOutside (· = ⟨.interfaces, id⟩) (s.linkInterface id version e) where
  software := rfl
  versions := rfl
  keeps := .linkInterface s id version e
  elements k r _ := by cases k <;> exact Iff.rfl
  deprecations _ _ := Iff.rfl
  arguments _ _ := Iff.rfl
  classInterfaces _ _ := Iff.rfl
  interfaceParents l hl := by
    rw [interfaceParents_linkInterface]
    exact Links.mem_redirect_of_ne fun hid => hl (congrArg (Owner.mk .interfaces) hid)

end SameOutside

end Store

/-! ## What a document declares in a version -/

namespace Document

/-- The namespaces and short names of the elements of a version that a document declares, or the
names of aliases. -/
def declaredKeys (d : Document) : ElementKind → List (String × String)
  | .classes => d.classes.map (·.key)
  | .interfaces => d.interfaces.map (·.key)
  | .functions => d.functions.map (·.key)
  | .aliases => d.aliases.map (·.key)
  | .classMethods | .interfaceMethods | .classProperties => []

/-- The names of the members that all entries of a class or interface declare. -/
def memberNames (d : Document) (c : String × String) : ElementKind → List String
  | .classMethods => (d.classMethods c).map (·.name)
  | .classProperties => (d.classProperties c).map (·.name)
  | .interfaceMethods => (d.interfaceMethods c).map (·.name)
  | .classes | .interfaces | .functions | .aliases => []

end Document

namespace Store

variable {s s' : Store} {version : Int} {d : Document}

/-- The document, imported into the version, declares an element of the natural key: it has an entry
of the key, or one of the class or interface that the element is a member of lists the name. -/
def Declares (s : Store) (version : Int) (d : Document) (k : ElementKind) (key : NaturalKey) : Prop :=
  match k.ownerKind.element? with
  | none => key.owner = version ∧ (key.scope, key.name) ∈ d.declaredKeys k
  | some l => ∃ r ∈ (s.table l).records, r.id = key.owner ∧ (l.key r.row).owner = version ∧
      key.name ∈ d.memberNames ((l.key r.row).scope, (l.key r.row).name) k

/-- What is declared lies in the version. -/
theorem Declares.ownerVersion? {k : ElementKind} {key : NaturalKey}
    (h : s.Declares version d k key) : s.ownerVersion? k.ownerKind key.owner = some version := by
  unfold Declares at h
  cases hl : k.ownerKind.element? with
  | none =>
    rw [hl] at h
    rw [OwnerKind.eq_versions_of_element? hl, ownerVersion?_versions, h.1]
  | some l =>
    rw [hl] at h
    obtain ⟨r, hr, hid, hversion, -⟩ := h
    exact (ownerVersion?_eq_some_iff hl).2 ⟨r, hr, hid, hversion⟩

/-- What is declared stays so while elements are kept: classes and interfaces keep their keys. -/
theorem Declares.of_keeps {k : ElementKind} {key : NaturalKey} (h : s.Declares version d k key)
    (hkeeps : s.KeepsElements s') : s'.Declares version d k key := by
  unfold Declares at h ⊢
  cases hl : k.ownerKind.element? with
  | none =>
    rw [hl] at h
    exact h
  | some l =>
    rw [hl] at h
    obtain ⟨r, hr, hid, hdeclared⟩ := h
    obtain ⟨r', hr', hid', hcolumns⟩ := hkeeps l r hr
    refine ⟨r', hr', hid'.trans hid, ?_⟩
    rw [ElementKind.key_congr hcolumns]
    exact hdeclared

/-- What is declared behind changes that keep elements was declared before, if its owner was there:
the owner had the key that it has. -/
theorem Declares.of_kept {k : ElementKind} {key : NaturalKey} (h : s'.Declares version d k key)
    (hkeeps : s.KeepsElements s') (howner : s.hasOwner k.ownerKind key.owner = true) :
    s.Declares version d k key := by
  unfold Declares at h ⊢
  cases hl : k.ownerKind.element? with
  | none =>
    rw [hl] at h
    exact h
  | some l =>
    rw [hl] at h
    obtain ⟨r', hr', hid', hdeclared⟩ := h
    obtain ⟨r, hr, hid⟩ := (hasOwner_iff_of_element? hl).1 howner
    obtain ⟨q, hq, hqid, hcolumns⟩ := hkeeps l r hr
    have hsame : q = r' := Table.eq_of_id_eq hq hr' (hqid.trans (hid.trans hid'.symm))
    rw [← hsame, ElementKind.key_congr hcolumns] at hdeclared
    exact ⟨r, hr, hid, hdeclared⟩

/-- A member is declared where an entry of its class or interface lists it, which is stored. -/
theorem Declares.of_owner {q : Put} {id : Int} (hstored : q.Stored s id)
    (hversion : q.key.owner = version) {k : ElementKind} {key : NaturalKey}
    (hk : k.ownerKind.element? = some q.kind) (howner : key.owner = id)
    (hname : key.name ∈ d.memberNames (q.key.scope, q.key.name) k) : s.Declares version d k key := by
  obtain ⟨row, hrow⟩ := hstored
  unfold Declares
  rw [hk]
  refine ⟨_, Table.mem_of_at? hrow, howner.symm, ?_⟩
  rw [Table.key_of_at? hrow]
  exact ⟨hversion, hname⟩

/-- What an import puts is declared. -/
theorem Puts.declares {p : Put} (h : s.Puts version d p) : s.Declares version d p.kind p.key := by
  cases h with
  | element hversion hp =>
    unfold Document.elementPuts Document.otherPuts at hp
    simp only [List.mem_append, List.mem_map] at hp
    -- A node of the version declares its key itself.
    obtain (⟨e, he, rfl⟩ | ⟨e, he, rfl⟩) | (⟨e, he, rfl⟩ | ⟨e, he, rfl⟩) := hp
    all_goals exact ⟨rfl, List.mem_map.2 ⟨e, he, rfl⟩⟩
  -- A member is declared by the last node of its owner's key that has it.
  | @classMember e id he hid hp =>
    have hentry : e ∈ d.classes.filter (·.key == e.key) :=
      List.mem_filter.2 ⟨he, beq_self_eq_true e.key⟩
    rcases List.mem_append.1 hp with hp | hp
    · obtain ⟨m, hm, rfl⟩ := List.mem_map.1 hp
      refine .of_owner hid rfl rfl rfl (List.mem_map.2 ⟨m, ?_, rfl⟩)
      exact List.mem_flatMap.2 ⟨e, hentry, hm⟩
    · obtain ⟨m, hm, rfl⟩ := List.mem_map.1 hp
      refine .of_owner hid rfl rfl rfl (List.mem_map.2 ⟨m, ?_, rfl⟩)
      exact List.mem_flatMap.2 ⟨e, hentry, hm⟩
  | @interfaceMember e id he hid hp =>
    have hentry : e ∈ d.interfaces.filter (·.key == e.key) :=
      List.mem_filter.2 ⟨he, beq_self_eq_true e.key⟩
    obtain ⟨m, hm, rfl⟩ := List.mem_map.1 hp
    refine .of_owner hid rfl rfl rfl (List.mem_map.2 ⟨m, ?_, rfl⟩)
    exact List.mem_flatMap.2 ⟨e, hentry, hm⟩

/-- The element is there, and the document declares it. -/
def IsDeclared (s : Store) (version : Int) (d : Document) (o : Owner) : Prop :=
  ∃ r ∈ (s.table o.kind).records, r.id = o.id ∧ s.Declares version d o.kind (o.kind.key r.row)

namespace IsDeclared

variable {o : Owner}

/-- What is declared lies in the version. -/
theorem versionOf? (h : s.IsDeclared version d o) : s.versionOf? o = some version := by
  obtain ⟨k, id⟩ := o
  obtain ⟨r, hr, hid, hdeclares⟩ := h
  exact versionOf?_eq_some_iff.2 ⟨r, hr, hid, hdeclares.ownerVersion?⟩

theorem of_keeps (h : s.IsDeclared version d o) (hkeeps : s.KeepsElements s') :
    s'.IsDeclared version d o := by
  obtain ⟨r, hr, hid, hdeclares⟩ := h
  obtain ⟨r', hr', hid', hcolumns⟩ := hkeeps o.kind r hr
  refine ⟨r', hr', hid'.trans hid, ?_⟩
  rw [ElementKind.key_congr hcolumns]
  exact hdeclares.of_keeps hkeeps

/-- Where an entry is stored whose key is declared, its element is. -/
theorem of_stored {p : Put} {id : Int} (h : p.Stored s id)
    (hdeclares : s.Declares version d p.kind p.key) : s.IsDeclared version d ⟨p.kind, id⟩ := by
  obtain ⟨row, hrow⟩ := h
  refine ⟨⟨id, row⟩, Table.mem_of_at? hrow, rfl, ?_⟩
  rw [Table.key_of_at? hrow]
  exact hdeclares

end IsDeclared

/-! ## Imports -/

/-- A step of an import touches an element that the document declares. -/
theorem sameOutside_step (h : ImportStep version d s s') :
    s.SameOutside (s'.IsDeclared version d) s' := by
  cases h with
  | @put p hp =>
    refine (SameOutside.put s p).mono ?_
    rintro _ rfl
    exact .of_stored Put.Stored.put_self (hp.declares.of_keeps (.put s p))
  | linkClass e id he hid =>
    refine (SameOutside.linkClass s id version e).mono ?_
    rintro _ rfl
    refine .of_stored (hid.linkClass id version e) ?_
    exact ⟨rfl, List.mem_map.2 ⟨e, he, rfl⟩⟩
  | linkInterface e id he hid =>
    refine (SameOutside.linkInterface s id version e).mono ?_
    rintro _ rfl
    refine .of_stored (hid.linkInterface id version e) ?_
    exact ⟨rfl, List.mem_map.2 ⟨e, he, rfl⟩⟩

/-- Many steps touch no other elements than those that the document declares. -/
theorem sameOutside_steps (h : ImportSteps version d s s') :
    s.SameOutside (s'.IsDeclared version d) s' := by
  induction h with
  | refl => exact .refl _ s
  | tail _ hlast ih =>
    -- What was declared before the last step still is.
    have hstep := sameOutside_step hlast
    exact (ih.mono fun o ho => ho.of_keeps hstep.keeps).trans hstep

/-- An import touches no other elements than those that the document declares. -/
theorem sameOutside_withDocument (h : s.versions.has version = true) :
    s.SameOutside ((s.withDocument version d).IsDeclared version d) (s.withDocument version d) :=
  sameOutside_steps (ImportSteps.withDocument h)

end Store
end ApiCatalog
