import ApiCatalog.Proofs.Store.Without
import ApiCatalog.Store.Browse
import Mathlib.Algebra.GroupWithZero.Nat

/-!
# The numbers on a dashboard add up

Every row of a reachable store lies in one version that is there, a class by its column and a
deprecation through its owner. So numbers that count the rows of one version add up, over all
versions, to the size of the table (`Reachable.addsUp`).

A deprecation is known by the element that it refers to, which is there and has no other one. So the
deprecations of a version are as many as its elements that have one
(`Reachable.countDeprecations_eq`). What happens in another version touches neither the rows that
are counted nor the versions of their owners (`Reachable.countDeprecations_run`).
-/

namespace ApiCatalog

/-- Items that are sorted into groups are counted once each. -/
theorem sum_length_filter {α β κ : Type} [BEq κ] [LawfulBEq κ] {f : α → κ} {g : β → κ}
    {groups : List β} (hnodup : (groups.map g).Nodup) {items : List α}
    (h : ∀ a ∈ items, f a ∈ groups.map g) :
    (groups.map fun b => (items.filter (f · == g b)).length).sum = items.length := by
  induction groups generalizing items with
  | nil =>
    cases items with
    | nil => rfl
    | cons a items => cases h a List.mem_cons_self
  | cons b groups ih =>
    obtain ⟨hb, hnodup⟩ := List.nodup_cons.1 hnodup
    -- The items of the other groups are found among those that are not in the first one.
    have hother : ∀ c ∈ groups, (items.filter (f · == g c)).length =
        ((items.filter fun a => !(f a == g b)).filter (f · == g c)).length := by
      intro c hc
      have hne : g c ≠ g b := fun heq => hb (heq ▸ List.mem_map_of_mem hc)
      rw [List.filter_filter]
      congr 1
      refine List.filter_congr fun a _ => ?_
      by_cases ha : f a = g c
      · simp [ha, hne]
      · simp [ha]
    have hrest : ∀ a ∈ items.filter fun a => !(f a == g b), f a ∈ groups.map g := by
      intro a ha
      obtain ⟨hmem, hne⟩ := List.mem_filter.1 ha
      rcases List.mem_cons.1 (h a hmem) with heq | hmore
      · simp [heq] at hne
      · exact hmore
    rw [List.map_cons, List.sum_cons, List.map_congr_left hother, ih hnodup hrest]
    exact (List.length_eq_length_filter_add _).symm

namespace Store

variable {s : Store} {version : Int}

/-! ## Deprecated elements -/

/-- The element has a deprecation. -/
def isDeprecated (s : Store) (o : Owner) : Bool := s.deprecations.records.any (·.row.isOf o)

/-- The owner is the version, or a class or interface of the version. -/
def isIn (s : Store) (version : Int) : OwnerKind → Int → Bool
  | .versions, id => id == version
  | .classes, id => s.classes.records.any fun r => r.id == id && r.row.version == version
  | .interfaces, id => s.interfaces.records.any fun r => r.id == id && r.row.version == version

/-- The elements of a kind that belong to a version, or to a class or interface of it, and have a
deprecation. -/
def deprecatedIn (s : Store) (version : Int) (k : ElementKind) : List (Record k.Row) :=
  (s.table k).records.filter fun r =>
    s.isIn version k.ownerKind (k.key r.row).owner && s.isDeprecated ⟨k, r.id⟩

theorem isIn_iff {o : OwnerKind} {id : Int} :
    s.isIn version o id = true ↔ s.ownerVersion? o id = some version := by
  cases o with
  | versions => simp [isIn]
  | classes =>
    rw [ownerVersion?_eq_some_iff (k := .classes) rfl]
    simp [isIn, table, ElementKind.key, ElementRow.key]
  | interfaces =>
    rw [ownerVersion?_eq_some_iff (k := .interfaces) rfl]
    simp [isIn, table, ElementKind.key, ElementRow.key]

theorem isDeprecated_iff {o : Owner} :
    s.isDeprecated o = true ↔ ∃ r ∈ s.deprecations.records, r.row.key = o.key := by
  unfold isDeprecated
  rw [List.any_eq_true]
  exact exists_congr fun r => and_congr_right fun _ => DeprecationRow.isOf_iff

theorem mem_deprecatedIn {k : ElementKind} {r : Record k.Row} : r ∈ s.deprecatedIn version k ↔
    r ∈ (s.table k).records ∧ s.versionOf? ⟨k, r.id⟩ = some version ∧
      ∃ d ∈ s.deprecations.records, d.row.key = Owner.key ⟨k, r.id⟩ := by
  unfold deprecatedIn
  rw [List.mem_filter, Bool.and_eq_true, isIn_iff, isDeprecated_iff]
  refine and_congr_right fun hr => ?_
  rw [versionOf?_of_mem hr]

/-- The kinds of elements that may be deprecated. -/
def deprecatedKinds : List ElementKind :=
  [.classes, .interfaces, .functions, .classMethods, .classProperties, .interfaceMethods]

theorem mem_deprecatedKinds {k : ElementKind} :
    k ∈ deprecatedKinds ↔ k.takesDeprecation = true := by
  cases k <;> decide

/-- What the deprecations of a version refer to. -/
def deprecationKeys (s : Store) (version : Int) : List (String × Int) :=
  (s.deprecations.records.filter fun r => r.row.owner?.bind s.versionOf? == some version).map
    (·.row.key)

/-- What refers to the elements of a version that have a deprecation. -/
def deprecatedKeys (s : Store) (version : Int) : List (String × Int) :=
  deprecatedKinds.flatMap fun k => (s.deprecatedIn version k).map fun r => Owner.key ⟨k, r.id⟩

theorem mem_deprecationKeys {key : String × Int} : key ∈ s.deprecationKeys version ↔
    ∃ r ∈ s.deprecations.records, r.row.key = key ∧
      ∃ o, r.row.owner? = some o ∧ s.versionOf? o = some version := by
  unfold deprecationKeys
  simp only [List.mem_map, List.mem_filter, beq_iff_eq, Option.bind_eq_some_iff]
  constructor
  · rintro ⟨r, ⟨hr, ho⟩, hkey⟩
    exact ⟨r, hr, hkey, ho⟩
  · rintro ⟨r, hr, hkey, ho⟩
    exact ⟨r, ⟨hr, ho⟩, hkey⟩

theorem mem_deprecatedKeys {key : String × Int} : key ∈ s.deprecatedKeys version ↔
    ∃ k, k.takesDeprecation = true ∧ ∃ r ∈ s.deprecatedIn version k, Owner.key ⟨k, r.id⟩ = key := by
  unfold deprecatedKeys
  simp only [List.mem_flatMap, List.mem_map, mem_deprecatedKinds]

/-- The deprecations of a version refer to its elements that have one, and to no others. -/
theorem mem_deprecationKeys_iff {key : String × Int} :
    key ∈ s.deprecationKeys version ↔ key ∈ s.deprecatedKeys version := by
  rw [mem_deprecationKeys, mem_deprecatedKeys]
  constructor
  · rintro ⟨d, hd, rfl, o, ho, hversion⟩
    obtain ⟨htakes, hkey⟩ := DeprecationRow.owner?_eq_some_iff.1 ho
    obtain ⟨k, id⟩ := o
    obtain ⟨r, hr, rfl, -⟩ := versionOf?_eq_some_iff.1 hversion
    exact ⟨k, htakes, r, mem_deprecatedIn.2 ⟨hr, hversion, d, hd, hkey⟩, hkey.symm⟩
  · rintro ⟨k, htakes, r, hr, rfl⟩
    obtain ⟨-, hversion, d, hd, hkey⟩ := mem_deprecatedIn.1 hr
    exact ⟨d, hd, hkey, _, DeprecationRow.owner?_eq_some_iff.2 ⟨htakes, hkey⟩, hversion⟩

theorem nodup_deprecatedKeys (s : Store) (version : Int) : (s.deprecatedKeys version).Nodup := by
  refine List.nodup_flatMap.2 ⟨fun k _ => ?_, ?_⟩
  · refine List.Nodup.map_on (fun r hr r' hr' hkey => ?_) ((s.table k).nodup_records.filter _)
    have hid : r.id = r'.id := congrArg Owner.id (Owner.key_inj hkey)
    exact Table.eq_of_id_eq (mem_deprecatedIn.1 hr).1 (mem_deprecatedIn.1 hr').1 hid
  · -- References to elements of different kinds differ in their words.
    have hkinds : deprecatedKinds.Nodup := by decide
    refine hkinds.imp fun {k l} hne key hkey hkey' => ?_
    obtain ⟨r, -, rfl⟩ := List.mem_map.1 hkey
    obtain ⟨r', -, hsame⟩ := List.mem_map.1 hkey'
    exact hne (congrArg Owner.kind (Owner.key_inj hsame)).symm

/-! ## Sums over versions -/

/-- The numbers of rows of single versions add up to all rows there are, and the deprecations of a
version are its elements that have one. -/
structure AddsUp (s : Store) : Prop where
  classes : (s.versions.records.map fun v => (s.dashboard v.id).classes).sum =
    s.classes.records.length
  interfaces : (s.versions.records.map fun v => (s.dashboard v.id).interfaces).sum =
    s.interfaces.records.length
  functions : (s.versions.records.map fun v => (s.dashboard v.id).functions).sum =
    s.functions.records.length
  deprecations : (s.versions.records.map fun v => (s.dashboard v.id).deprecations).sum =
    s.deprecations.records.length
  deprecated : ∀ version, (s.dashboard version).deprecations =
    (s.deprecatedIn version .classes).length + (s.deprecatedIn version .interfaces).length +
      (s.deprecatedIn version .functions).length +
      (s.deprecatedIn version .classMethods).length +
      (s.deprecatedIn version .classProperties).length +
      (s.deprecatedIn version .interfaceMethods).length

end Store

namespace Reachable

variable {s : Store}

theorem nodup_deprecationKeys (h : Reachable s) (version : Int) :
    (s.deprecationKeys version).Nodup := by
  refine List.Nodup.map_on (fun r hr r' hr' hkey => ?_) (s.deprecations.nodup_records.filter _)
  exact h.hasUniqueKeys.deprecations r (List.mem_filter.1 hr).1 r' (List.mem_filter.1 hr').1 hkey

/-- A version has as many deprecations as it has elements with one. -/
theorem countDeprecations_eq (h : Reachable s) (version : Int) : s.countDeprecations version =
    (Store.deprecatedKinds.map fun k => (s.deprecatedIn version k).length).sum := by
  have hperm : (s.deprecationKeys version).Perm (s.deprecatedKeys version) :=
    (List.perm_ext_iff_of_nodup (h.nodup_deprecationKeys version)
      (s.nodup_deprecatedKeys version)).2 fun _ => Store.mem_deprecationKeys_iff
  have hlength := hperm.length_eq
  unfold Store.deprecationKeys Store.deprecatedKeys at hlength
  rw [List.length_map, List.length_flatMap] at hlength
  simp only [List.length_map] at hlength
  exact hlength

/-- Rows that each lie in a version that is there are counted once each over all versions. -/
theorem sum_count_versions {α : Type} {t : Table α} {f : α → Option Int}
    (h : ∀ r ∈ t.records, ∃ version, f r.row = some version ∧ s.versions.has version = true) :
    (s.versions.records.map fun v => t.count (f · == some v.id)).sum = t.records.length := by
  refine sum_length_filter (f := fun r : Record α => f r.row)
    (g := fun v : Record Version => some v.id) ?_ fun r hr => ?_
  · have hids := List.Nodup.map_on (fun _ _ _ _ hsome => Option.some.inj hsome) s.versions.nodup_ids
    rwa [List.map_map] at hids
  · obtain ⟨version, hf, hversion⟩ := h r hr
    obtain ⟨v, hv, hid⟩ := Table.has_iff.1 hversion
    rw [hf]
    exact List.mem_map.2 ⟨v, hv, congrArg some hid⟩

/-- In a reachable store the numbers on the dashboards add up. -/
theorem addsUp (h : Reachable s) : s.AddsUp where
  classes := sum_count_versions (f := fun row : ClassRow => some row.version)
    fun r hr => ⟨_, rfl, h.hasOwners .classes r hr⟩
  interfaces := sum_count_versions (f := fun row : ElementRow => some row.version)
    fun r hr => ⟨_, rfl, h.hasOwners .interfaces r hr⟩
  functions := sum_count_versions (f := fun row : FunctionRow => some row.version)
    fun r hr => ⟨_, rfl, h.hasOwners .functions r hr⟩
  deprecations := by
    refine sum_count_versions (f := fun row : DeprecationRow => row.owner?.bind s.versionOf?)
      fun r hr => ?_
    obtain ⟨o, version, ho, hversion⟩ := h.exists_version_of_deprecation hr
    rw [ho]
    exact ⟨version, hversion, h.hasOwners.has_of_versionOf? hversion⟩
  deprecated version := by
    show s.countDeprecations version = _
    rw [h.countDeprecations_eq]
    simp [Store.deprecatedKinds, Nat.add_assoc]

end Reachable

/-! ## Changes in another version -/

namespace Store

variable {s s' : Store} {version other : Int}

/-- A version has as many deprecations in both stores if these are the same rows, and others do not
come to lie in it. -/
theorem countDeprecations_congr
    (hsame : ∀ r : Record DeprecationRow, r.row.owner?.bind s'.versionOf? = some other →
      (r ∈ s'.deprecations.records ↔ r ∈ s.deprecations.records))
    (hstays : ∀ r ∈ s.deprecations.records, r.row.owner?.bind s'.versionOf? = some other ↔
      r.row.owner?.bind s.versionOf? = some other) :
    s'.countDeprecations other = s.countDeprecations other := by
  refine congrArg List.length (Table.records_keep_congr (fun r hr => hsame r (beq_iff_eq.1 hr))
    fun r hr => ?_)
  rw [Bool.eq_iff_iff, beq_iff_eq, beq_iff_eq]
  exact hstays r hr

/-- Where only what then lies in another version was touched, a version has the same deprecations. -/
theorem SameOutside.countDeprecations_eq
    (h : s.SameOutside (fun o => s'.versionOf? o = some version) s') (hs : Reachable s)
    (hne : other ≠ version) : s'.countDeprecations other = s.countDeprecations other := by
  refine countDeprecations_congr (fun r hr => h.deprecations r fun o ho htouched => ?_)
    fun r hr => ?_
  · rw [ho, Option.bind_some, htouched] at hr
    exact hne (Option.some.inj hr).symm
  · obtain ⟨o, v, ho, hv⟩ := hs.exists_version_of_deprecation hr
    rw [ho, Option.bind_some, Option.bind_some, hv, h.keeps.versionOf? hv]

/-- The elements of the versions that stay are those that they had. -/
theorem versionOf?_without_iff (hs : Reachable s) (hne : other ≠ version) {o : Owner} :
    (s.without version).versionOf? o = some other ↔ s.versionOf? o = some other := by
  have hdelete : s.deleteVersion version = s.without version :=
    deleteVersion_eq_without hs.ownersThere hs.linksInside
  constructor
  · intro h
    obtain ⟨k, id⟩ := o
    obtain ⟨r, hr, rfl, -⟩ := versionOf?_eq_some_iff.1 h
    rw [without_table] at hr
    obtain ⟨hmem, hstays⟩ := Table.mem_keep.1 hr
    obtain ⟨v, hv⟩ := hs.hasOwners.exists_version (o := ⟨k, r.id⟩) (Table.has_iff.2 ⟨r, hmem, rfl⟩)
    -- The element stays, so it lies in a version that does, and keeps that.
    have hvne : v ≠ version := by
      intro heq
      rw [liesOutside_iff, hv, heq] at hstays
      exact hstays rfl
    have hsame := versionOf?_deleteVersion hv hvne
    rw [hdelete, h] at hsame
    rw [hv, hsame]
  · intro h
    rw [← hdelete]
    exact versionOf?_deleteVersion h hne

theorem countDeprecations_without (hs : Reachable s) (hne : other ≠ version) :
    (s.without version).countDeprecations other = s.countDeprecations other := by
  have hbind : ∀ o? : Option Owner, o?.bind (s.without version).versionOf? = some other ↔
      o?.bind s.versionOf? = some other := by
    intro o?
    cases o? with
    | none => exact Iff.rfl
    | some o => exact versionOf?_without_iff hs hne
  refine countDeprecations_congr (fun r hr => ?_) fun r _ => hbind _
  obtain ⟨o, ho, hversion⟩ := Option.bind_eq_some_iff.1 ((hbind _).1 hr)
  have hstays : s.liesOutside version o = true := by
    rw [liesOutside_iff, hversion]
    exact fun heq => hne (Option.some.inj heq)
  show r ∈ (s.deprecations.keep _).records ↔ _
  rw [Table.mem_keep, ho]
  exact and_iff_left hstays

end Store

/-- The call imports a document into the version, or deletes it. -/
def Call.WorksOn (version : Int) (c : Call) : Prop :=
  c.ImportsInto version ∨ c = .deleteVersion version

/-- An import that finds no version changes nothing. -/
theorem Call.ImportsInto.run_of_missing {s : Store} {version : Int} {c : Call}
    (h : c.ImportsInto version) (hmissing : s.versions.has version = false) : c.run s = s := by
  cases c with
  | importInto version' d =>
    cases h
    exact congrArg Prod.snd (Change.importInto_apply_of_missing hmissing)
  | importDocument version' d =>
    cases h
    have happly := Change.importDocument_apply_of_missing (d := d) hmissing
    rw [Change.importInto_apply_of_missing hmissing] at happly
    exact congrArg Prod.snd happly
  | addSoftware | addVersion | deleteVersion | reconcile | linkClass | linkInterface => cases h

namespace Reachable

variable {s : Store} {version other : Int} {c : Call}

/-- Importing into a version and deleting it leave the number of deprecations of every other one. -/
theorem countDeprecations_run (h : Reachable s) (hc : c.WorksOn version) (hne : other ≠ version) :
    (c.run s).countDeprecations other = s.countDeprecations other := by
  rcases hc with hc | rfl
  · cases hversion : s.versions.has version with
    | true => exact (hc.sameOutside hversion).countDeprecations_eq h hne
    | false => rw [hc.run_of_missing hversion]
  · show (s.deleteVersion version).countDeprecations other = _
    rw [Store.deleteVersion_eq_without h.ownersThere h.linksInside]
    exact Store.countDeprecations_without h hne

/-- The numbers on the dashboards of a reachable store add up to the sizes of its tables, and the
number of deprecations of a version is a matter of that version alone. -/
theorem dashboards_add_up (h : Reachable s) : s.AddsUp ∧
    ∀ (c : Call) (version other : Int), c.WorksOn version → other ≠ version →
      (c.run s).countDeprecations other = s.countDeprecations other :=
  ⟨h.addsUp, fun _ _ _ hc hne => h.countDeprecations_run hc hne⟩

/-- They do where one version has the animals, and the other one a deprecated function that it keeps
while the animals go. -/
theorem dashboards_add_up_animals :
    let s := Store.oneVersion.runAll [.addVersion 1 "2.0" none, .importDocument 1 .animals,
      .importDocument 2 .deprecated]
    s.versions.records.map (fun v => (s.dashboard v.id).classes) = [2, 0] ∧
      s.versions.records.map (fun v => (s.dashboard v.id).deprecations) = [0, 1] ∧ s.AddsUp ∧
        ((Call.deleteVersion 1).run s).countDeprecations 2 = s.countDeprecations 2 := by
  intro s
  obtain ⟨hsums, hothers⟩ := dashboards_add_up (s := s) (reachable_oneVersion.runAll _)
  exact ⟨by decide +kernel, by decide +kernel, hsums,
    hothers (.deleteVersion 1) 1 2 (.inr rfl) (by decide)⟩

end Reachable
end ApiCatalog
