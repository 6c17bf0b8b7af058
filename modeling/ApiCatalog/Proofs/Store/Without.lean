import ApiCatalog.Proofs.Store.Frame
import ApiCatalog.Proofs.Store.Inside

/-!
# Deleting a version takes what lies in it

`Store.without` says in one line for each table what is left without a version: what does not lie in
it, with all its columns. Deleting a version of a reachable store comes to just that
(`Store.deleteVersion_eq_without`). Classes that stay lose no parent, since parents lie in the same
version, and a deprecation or an argument goes with its owner, since it has one.

Imports into a version touch only what then lies in it. So a version that is made, filled by imports
and deleted again leaves every table with the rows that it had
(`Store.SameOutside.sameRows_without`).
-/

namespace ApiCatalog

/-! ## Tables with the same rows -/

theorem Table.nodup_records {α : Type} (t : Table α) : t.records.Nodup :=
  List.Nodup.of_map Record.id t.nodup_ids

/-- Records stand in the order of their ids, so tables with the same records in them list them
alike. -/
theorem Table.records_eq_of_mem_iff {α : Type} {t u : Table α}
    (h : ∀ r, r ∈ t.records ↔ r ∈ u.records) : t.records = u.records := by
  have hperm : t.records.Perm u.records :=
    (List.perm_ext_iff_of_nodup t.nodup_records u.nodup_records).2 h
  refine hperm.eq_of_pairwise (fun r r' _ _ hlt hlt' => ?_) t.ascending u.ascending
  omega

/-- What is alike wherever it stays, and stays alike wherever it was, is there and stays alike. -/
theorem and_iff_and_of_imp {p p' stays stays' : Prop} (hsame : stays' → (p' ↔ p))
    (hstays : p → (stays' ↔ stays)) : p' ∧ stays' ↔ p ∧ stays := by
  constructor
  · rintro ⟨hp', hs'⟩
    have hp := (hsame hs').1 hp'
    exact ⟨hp, (hstays hp).1 hs'⟩
  · rintro ⟨hp, hs⟩
    have hs' := (hstays hp).2 hs
    exact ⟨(hsame hs').2 hp, hs'⟩

/-- Two tables are left with the same records if they agree on those that are kept of one, and if the
other keeps its own records alike. -/
theorem Table.records_keep_congr {α : Type} {t u : Table α} {p q : Record α → Bool}
    (hsame : ∀ r, q r = true → (r ∈ u.records ↔ r ∈ t.records))
    (hstays : ∀ r ∈ t.records, q r = p r) : (u.keep q).records = (t.keep p).records := by
  refine records_eq_of_mem_iff fun r => ?_
  rw [mem_keep, mem_keep]
  exact and_iff_and_of_imp (hsame r) fun hr => by rw [hstays r hr]

@[inherit_doc Table.records_keep_congr]
theorem Links.keep_congr {l m : Links} {p q : Int × Int → Bool}
    (hsame : ∀ r, q r = true → (r ∈ m.pairs ↔ r ∈ l.pairs))
    (hstays : ∀ r ∈ l.pairs, q r = p r) : m.keep q = l.keep p := by
  refine eq_of_mem_iff fun r => ?_
  rw [mem_keep, mem_keep]
  exact and_iff_and_of_imp (hsame r) fun hr => by rw [hstays r hr]

namespace Store

variable {s s' s'' : Store} {version : Int}

/-- The stores have the same rows in every table. They may differ in the ids that new rows get. -/
structure SameRows (s s' : Store) : Prop where
  software : s.software.records = s'.software.records
  versions : s.versions.records = s'.versions.records
  elements : ∀ k, (s.table k).records = (s'.table k).records
  deprecations : s.deprecations.records = s'.deprecations.records
  arguments : s.arguments.records = s'.arguments.records
  classInterfaces : s.classInterfaces.pairs = s'.classInterfaces.pairs
  interfaceParents : s.interfaceParents.pairs = s'.interfaceParents.pairs

theorem SameRows.trans (h : s.SameRows s') (h' : s'.SameRows s'') : s.SameRows s'' where
  software := h.software.trans h'.software
  versions := h.versions.trans h'.versions
  elements k := (h.elements k).trans (h'.elements k)
  deprecations := h.deprecations.trans h'.deprecations
  arguments := h.arguments.trans h'.arguments
  classInterfaces := h.classInterfaces.trans h'.classInterfaces
  interfaceParents := h.interfaceParents.trans h'.interfaceParents

/-! ## What is left without a version -/

/-- The element is not one of the version. -/
def liesOutside (s : Store) (version : Int) (o : Owner) : Bool := s.versionOf? o != some version

/-- The store without a version and without the elements that lie in it, their deprecations, their
arguments and their links. -/
def without (s : Store) (version : Int) : Store where
  software := s.software
  versions := s.versions.keep fun r => r.id != version
  classes := s.classes.keep fun r => s.liesOutside version ⟨.classes, r.id⟩
  interfaces := s.interfaces.keep fun r => s.liesOutside version ⟨.interfaces, r.id⟩
  interfaceParents := s.interfaceParents.keep fun l =>
    s.liesOutside version ⟨.interfaces, l.1⟩ && s.liesOutside version ⟨.interfaces, l.2⟩
  classInterfaces := s.classInterfaces.keep fun l =>
    s.liesOutside version ⟨.classes, l.1⟩ && s.liesOutside version ⟨.interfaces, l.2⟩
  classMethods := s.classMethods.keep fun r => s.liesOutside version ⟨.classMethods, r.id⟩
  interfaceMethods := s.interfaceMethods.keep fun r => s.liesOutside version ⟨.interfaceMethods, r.id⟩
  classProperties := s.classProperties.keep fun r => s.liesOutside version ⟨.classProperties, r.id⟩
  functions := s.functions.keep fun r => s.liesOutside version ⟨.functions, r.id⟩
  arguments := s.arguments.keep fun r => r.row.owner?.all (s.liesOutside version)
  deprecations := s.deprecations.keep fun r => r.row.owner?.all (s.liesOutside version)
  aliases := s.aliases.keep fun r => s.liesOutside version ⟨.aliases, r.id⟩

theorem liesOutside_iff {o : Owner} :
    s.liesOutside version o = true ↔ s.versionOf? o ≠ some version := by
  unfold liesOutside
  rw [bne_iff_ne]

theorem without_table (k : ElementKind) : (s.without version).table k =
    (s.table k).keep fun r => s.liesOutside version ⟨k, r.id⟩ := by
  cases k <;> rfl

/-- A reference that an element takes stays with it: of the kinds that are dropped, its own
decides. -/
theorem deletionOrder_all {takes : ElementKind → Bool} {o : Owner} (htakes : takes o.kind = true) :
    (deletionOrder.all fun k => !(takes k && (o.key.1 == k.keyword &&
      ((s.table k).idsWhere (s.goesWith version k)).contains o.key.2))) =
        s.liesOutside version o := by
  rw [Bool.eq_iff_iff, List.all_eq_true, liesOutside_iff, ne_eq]
  rw [← mem_idsWhere_goesWith (k := o.kind)]
  constructor
  · intro hall hgone
    have hkind := hall o.kind (mem_deletionOrder o.kind)
    simp [Owner.key, hgone, htakes] at hkind
  · intro hstays k _
    rw [Bool.not_eq_true', ← Bool.not_eq_true, Bool.and_eq_true, Bool.and_eq_true, beq_iff_eq,
      List.contains_iff_mem]
    rintro ⟨-, hword, hgone⟩
    cases ElementKind.keyword_inj hword
    exact hstays hgone

/-- A class that stays has a parent that stays. -/
theorem LinksInside.filter_parent (h : s.LinksInside) {r : Record ClassRow}
    (hr : r ∈ s.classes.records) (hstays : s.versionOf? ⟨.classes, r.id⟩ ≠ some version) :
    (r.row.parent.filter fun id => !(s.classes.idsWhere (·.version == version)).contains id) =
      r.row.parent := by
  cases hparent : r.row.parent with
  | none => rfl
  | some parent =>
    obtain ⟨-, other, hself, hversion⟩ := h.parents r.id parent ⟨r, hr, rfl, hparent⟩
    have hne : s.versionOf? ⟨.classes, parent⟩ ≠ some version := by
      rw [hversion, ← hself]
      exact hstays
    rw [Option.filter_some, contains_classIds,
      ownerVersion?_of_element? (o := .classes) rfl]
    simp [hne]

/-- A deletion leaves what does not lie in the version, with all its columns. -/
theorem deleteVersion_eq_without (howners : s.OwnersThere) (hlinks : s.LinksInside) :
    s.deleteVersion version = s.without version := by
  refine ext_table (fun k => ?_) ?_ ?_ deleteVersion_software deleteVersion_versions
    deleteVersion_interfaceParents deleteVersion_classInterfaces
  -- The tables of elements: each keeps what does not go with the version.
  · have hkeep : ((s.table k).keep fun r => !s.goesWith version k r.row) =
        (s.without version).table k := by
      rw [without_table]
      refine Table.keep_congr fun r hr => ?_
      rw [goesWith_of_mem hr]
      rfl
    -- Only classes have a parent to set to nothing, and a parent goes just when its child does.
    by_cases hk : k = .classes
    · subst hk
      refine deleteVersion_classes.trans (Eq.trans ?_ hkeep)
      refine Table.mapRows_eq_self fun r hr => ?_
      obtain ⟨hmem, hstays⟩ := Table.mem_keep.1 hr
      rw [goesWith_of_mem hmem, Bool.not_eq_true', beq_eq_false_iff_ne] at hstays
      rw [hlinks.filter_parent hmem hstays]
      rfl
    · exact (deleteVersion_table hk).trans hkeep
  -- What belongs to an element goes with it, whatever the order of the deletions.
  · rw [deleteVersion_deprecations]
    refine Table.keep_congr fun r hr => ?_
    obtain ⟨o, htakes, hkey, -⟩ := howners.deprecations r hr
    rw [hkey, deletionOrder_all htakes, DeprecationRow.owner?_eq_some_iff.2 ⟨htakes, hkey⟩]
    rfl
  · rw [deleteVersion_arguments]
    refine Table.keep_congr fun r hr => ?_
    obtain ⟨o, htakes, hkey, -⟩ := howners.arguments r hr
    rw [hkey, deletionOrder_all htakes, ArgumentRow.owner?_eq_some_iff.2 ⟨htakes, hkey⟩]
    rfl

/-! ## Changes in one version -/

/-- The version of what lies in one does not change while elements are kept. -/
theorem KeepsElements.liesOutside_eq (h : s.KeepsElements s') {o : Owner} {other : Int}
    (ho : s.versionOf? o = some other) : s'.liesOutside version o = s.liesOutside version o := by
  unfold liesOutside
  rw [ho, h.versionOf? ho]

end Store

namespace Reachable

variable {s : Store}

/-- In a reachable store a deprecation refers to an element that lies in a version. -/
theorem exists_version_of_deprecation (h : Reachable s) {r : Record DeprecationRow}
    (hr : r ∈ s.deprecations.records) :
    ∃ o version, r.row.owner? = some o ∧ s.versionOf? o = some version := by
  obtain ⟨o, htakes, hkey, hhas⟩ := h.ownersThere.deprecations r hr
  obtain ⟨version, hversion⟩ := h.hasOwners.exists_version hhas
  exact ⟨o, version, DeprecationRow.owner?_eq_some_iff.2 ⟨htakes, hkey⟩, hversion⟩

theorem exists_version_of_argument (h : Reachable s) {r : Record ArgumentRow}
    (hr : r ∈ s.arguments.records) :
    ∃ o version, r.row.owner? = some o ∧ s.versionOf? o = some version := by
  obtain ⟨o, htakes, hkey, hhas⟩ := h.ownersThere.arguments r hr
  obtain ⟨version, hversion⟩ := h.hasOwners.exists_version hhas
  exact ⟨o, version, ArgumentRow.owner?_eq_some_iff.2 ⟨htakes, hkey⟩, hversion⟩

end Reachable

namespace Store

variable {s s' : Store} {version : Int}

/-- Where only what then lies in a version was touched, all that does not is the same. -/
theorem SameOutside.sameRows_without
    (h : s.SameOutside (fun o => s'.versionOf? o = some version) s') (hs : Reachable s) :
    (s'.without version).SameRows (s.without version) where
  software := congrArg Table.records h.software
  versions := by
    -- Versions are filtered by id, and `s` has the same rows of them.
    show (s'.versions.keep _).records = (s.versions.keep _).records
    rw [h.versions]
  -- A row of another version stays on both sides, and a row of this one stays on neither.
  elements k := by
    rw [without_table, without_table]
    refine Table.records_keep_congr (fun r hstays => ?_) fun r hr => ?_
    · exact h.elements k r (liesOutside_iff.1 hstays)
    · obtain ⟨other, hother⟩ := hs.hasOwners.exists_version (o := ⟨k, r.id⟩)
        (Table.has_iff.2 ⟨r, hr, rfl⟩)
      exact h.keeps.liesOutside_eq hother
  deprecations := by
    refine Table.records_keep_congr (fun r hstays => h.deprecations r fun o ho => ?_) fun r hr => ?_
    · rw [ho] at hstays
      exact liesOutside_iff.1 hstays
    · obtain ⟨o, other, ho, hother⟩ := hs.exists_version_of_deprecation hr
      rw [ho, Option.all_some, Option.all_some, h.keeps.liesOutside_eq hother]
  arguments := by
    refine Table.records_keep_congr (fun r hstays => h.arguments r fun o ho => ?_) fun r hr => ?_
    · rw [ho] at hstays
      exact liesOutside_iff.1 hstays
    · obtain ⟨o, other, ho, hother⟩ := hs.exists_version_of_argument hr
      rw [ho, Option.all_some, Option.all_some, h.keeps.liesOutside_eq hother]
  classInterfaces := by
    refine congrArg Links.pairs (Links.keep_congr (fun l hstays => ?_) fun l hl => ?_)
    · exact h.classInterfaces l (liesOutside_iff.1 (Bool.and_eq_true_iff.1 hstays).1)
    · obtain ⟨other, hsource, htarget⟩ := hs.linksInside.classInterfaces l hl
      rw [h.keeps.liesOutside_eq hsource, h.keeps.liesOutside_eq htarget]
  interfaceParents := by
    refine congrArg Links.pairs (Links.keep_congr (fun l hstays => ?_) fun l hl => ?_)
    · exact h.interfaceParents l (liesOutside_iff.1 (Bool.and_eq_true_iff.1 hstays).1)
    · obtain ⟨-, other, hsource, htarget⟩ := hs.linksInside.interfaceParents l hl
      rw [h.keeps.liesOutside_eq hsource, h.keeps.liesOutside_eq htarget]

/-! ## A new version -/

/-- Without a version that is not there everything is left. -/
theorem without_of_missing (hs : Reachable s) (h : s.versions.has version = false) :
    s.without version = s := by
  -- Whatever lies in a version lies in one that is there.
  have houtside : ∀ o, s.liesOutside version o = true := by
    intro o
    rw [liesOutside_iff]
    intro ho
    have hthere := hs.hasOwners.has_of_versionOf? ho
    rw [h] at hthere
    cases hthere
  have hreference : ∀ o? : Option Owner, o?.all (s.liesOutside version) = true := by
    intro o?
    cases o? with
    | none => rfl
    | some o => exact houtside o
  refine ext_table (fun k => ?_) (Table.keep_eq_self fun _ _ => hreference _)
    (Table.keep_eq_self fun _ _ => hreference _) rfl (Table.keep_eq_self fun r hr => ?_)
    (Links.keep_eq_self fun l _ => ?_) (Links.keep_eq_self fun l _ => ?_)
  · rw [without_table]
    exact Table.keep_eq_self fun _ _ => houtside _
  · rw [bne_iff_ne]
    intro hid
    rw [Table.has_iff.2 ⟨r, hr, hid⟩] at h
    cases h
  · rw [houtside, houtside, Bool.and_self]
  · rw [houtside, houtside, Bool.and_self]

/-- A new version has nothing in it, so without it everything is left. -/
theorem sameRows_addVersion (hs : Reachable s) (row : Version) :
    ({ s with versions := s.versions.add row }.without s.versions.nextId).SameRows s := by
  have hmissing : s.versions.has s.versions.nextId = false := by
    rw [← Bool.not_eq_true, Table.has_iff]
    rintro ⟨r, hr, hid⟩
    exact Table.id_ne_nextId hr hid
  have hrest : { s with versions := s.versions.add row }.without s.versions.nextId =
      { s.without s.versions.nextId with
        versions := (s.versions.add row).keep fun r => r.id != s.versions.nextId } := rfl
  rw [hrest, without_of_missing hs hmissing]
  refine ⟨rfl, ?_, fun k => by cases k <;> rfl, rfl, rfl, rfl, rfl⟩
  refine Table.records_eq_of_mem_iff fun r => ?_
  rw [Table.mem_keep, Table.mem_add, bne_iff_ne]
  constructor
  · rintro ⟨hr | rfl, hne⟩
    · exact hr
    · exact absurd rfl hne
  · intro hr
    exact ⟨.inl hr, Table.id_ne_nextId hr⟩

end Store

namespace Call

/-- The call imports a document into the version. -/
def ImportsInto (version : Int) : Call → Prop
  | importInto version' _ | importDocument version' _ => version' = version
  | _ => False

/-- Imports into a version touch only what then lies in it. -/
theorem ImportsInto.sameOutside {s : Store} {version : Int} {c : Call} (h : c.ImportsInto version)
    (hversion : s.versions.has version = true) :
    s.SameOutside (fun o => (c.run s).versionOf? o = some version) (c.run s) := by
  have hrun : ∃ d, c.run s = s.withDocument version d := by
    cases c with
    | importInto version' d =>
      cases h
      exact ⟨d, congrArg Prod.snd (Change.importInto_apply hversion)⟩
    | importDocument version' d =>
      cases h
      exact ⟨d, congrArg Prod.snd (Change.importDocument_apply hversion)⟩
    | addSoftware | addVersion | deleteVersion | reconcile | linkClass | linkInterface => cases h
  obtain ⟨d, hd⟩ := hrun
  rw [hd]
  exact (Store.sameOutside_withDocument hversion).mono fun o ho => ho.versionOf?

end Call

/-- Many imports into a version touch only what lies in it in the end. -/
theorem Store.sameOutside_runAll {s : Store} {version : Int} {calls : List Call}
    (h : ∀ c ∈ calls, c.ImportsInto version) (hversion : s.versions.has version = true) :
    s.SameOutside (fun o => (s.runAll calls).versionOf? o = some version) (s.runAll calls) := by
  induction calls generalizing s with
  | nil => exact .refl _ s
  | cons c calls ih =>
    have hfirst := (h c List.mem_cons_self).sameOutside hversion
    have hrest := ih (s := c.run s) (fun c' hc' => h c' (List.mem_cons_of_mem _ hc'))
      (by rw [hfirst.versions]; exact hversion)
    -- What the first import touches stays in the version through the rest.
    exact (hfirst.mono fun o ho => hrest.keeps.versionOf? ho).trans hrest

/-! ## Deletions -/

/-- A deletion tells whether there is such a version, and leaves what does not lie in it. -/
theorem Change.deleteVersion_apply {s : Store} (hs : Reachable s) (version : Int) :
    (deleteVersion version).apply s = (.ok (s.versions.has version), s.without version) := by
  have hstore : s.deleteVersion version = s.without version :=
    Store.deleteVersion_eq_without hs.ownersThere hs.linksInside
  have hwent : decide ((s.versions.keep fun r => r.id != version).records.length <
      s.versions.records.length) = s.versions.has version := by
    rw [Bool.eq_iff_iff, decide_eq_true_eq, Table.has_iff]
    show (s.versions.records.filter fun r => r.id != version).length < _ ↔ _
    rw [List.length_filter_lt_length_iff_exists]
    simp
  unfold deleteVersion
  rw [apply_get_bind, hstore]
  dsimp only
  rw [apply_set_bind, ← hwent]
  rfl

/-- Deleting a version of a reachable store takes what lies in it and nothing else. So a version
that is made, filled by imports and deleted again leaves no trace in the tables. -/
theorem Reachable.deleteVersion_exact {s : Store} (h : Reachable s) :
    (∀ version, (Change.deleteVersion version).apply s =
      (.ok (s.versions.has version), s.without version)) ∧
    ∀ software name displayName r s₁,
      (Change.addVersion software name displayName).apply s = (.ok (some r), s₁) →
      ∀ calls : List Call, (∀ c ∈ calls, c.ImportsInto r.id) →
        ∃ s₂, (Change.deleteVersion r.id).apply (s₁.runAll calls) = (.ok true, s₂) ∧
          s₂.SameRows s := by
  refine ⟨Change.deleteVersion_apply h, fun software name displayName r s₁ hadd calls hcalls => ?_⟩
  -- The new version has an id of its own, and nothing else has changed.
  have hnew : r.id = s.versions.nextId ∧ s₁ = { s with versions := s.versions.add r.row } := by
    rw [Change.addVersion_apply] at hadd
    split at hadd
    · cases hadd
    · split at hadd
      · cases hadd
        exact ⟨rfl, rfl⟩
      · cases hadd
  have hs₁ : Reachable s₁ := by
    have hcall := h.call (.addVersion software name displayName)
    rwa [show (Call.addVersion software name displayName).run s = s₁ from
      congrArg Prod.snd hadd] at hcall
  have hversion : s₁.versions.has r.id = true := by
    rw [hnew.1, hnew.2]
    exact Table.has_iff.2 ⟨_, Table.mem_add.2 (.inr rfl), rfl⟩
  -- The imports touch the new version only, so taking it away again takes all of them away.
  have hframe := Store.sameOutside_runAll hcalls hversion
  have hbefore : (s₁.without r.id).SameRows s := by
    rw [hnew.1, hnew.2]
    exact Store.sameRows_addVersion h r.row
  refine ⟨_, ?_, (hframe.sameRows_without hs₁).trans hbefore⟩
  rw [Change.deleteVersion_apply (hs₁.runAll calls), hframe.versions, hversion]

/-- The animals go with the one version that has them, and leave no trace in a second one. -/
theorem Reachable.deleteVersion_exact_animals :
    let s := Store.oneVersion.runAll [.importDocument 1 .animals]
    (Change.deleteVersion 1).apply s = (.ok true, s.without 1) ∧
      (s.without 1).classes.records = [] ∧
        ∃ r s₁, (Change.addVersion 1 "2.0" none).apply s = (.ok (some r), s₁) ∧
          ∃ s₂, (Change.deleteVersion r.id).apply (s₁.runAll
              [.importDocument r.id .animals, .importInto r.id .deprecated]) = (.ok true, s₂) ∧
            s₂.SameRows s := by
  intro s
  obtain ⟨hdelete, hundo⟩ := Reachable.deleteVersion_exact (s := s) (reachable_oneVersion.runAll _)
  have hthere : s.versions.has 1 = true := by decide +kernel
  have hadd := Change.addVersion_apply (s := s) 1 "2.0" none
  rw [if_neg (by decide +kernel), if_pos (by decide +kernel)] at hadd
  refine ⟨?_, by decide +kernel, _, _, hadd, hundo 1 "2.0" none _ _ hadd _ ?_⟩
  · rw [hdelete 1, hthere]
  · simp [Call.ImportsInto]

end ApiCatalog
