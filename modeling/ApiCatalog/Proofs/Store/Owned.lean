import ApiCatalog.Proofs.Store.Unique

/-!
# Deprecations and arguments have owners

A deprecation or argument refers to its element by a word and an id, and nothing in the tables
themselves ties it to that element. Still there are no strays in a reachable store: entries are put
together with the row they belong to, and whatever drops a row drops what refers to it.
-/

namespace ApiCatalog

/-! ## References -/

theorem ElementKind.ofKeyword?_eq_some_iff {word : String} {k : ElementKind} :
    ofKeyword? word = some k ↔ k.keyword = word := by
  constructor
  · intro h
    simpa using List.find?_some h
  · rintro rfl
    cases k <;> decide

/-- A word and an id refer to the element that has both, if it is of an accepted kind. -/
theorem Owner.eq_some_iff_of_filter {takes : ElementKind → Bool} {word : String} {id : Int}
    {o : Owner} :
    ((ElementKind.ofKeyword? word).filter takes).map (Owner.mk · id) = some o ↔
      takes o.kind = true ∧ (word, id) = o.key := by
  rw [Option.map_eq_some_iff]
  constructor
  · rintro ⟨k, hk, rfl⟩
    obtain ⟨hword, htakes⟩ := Option.filter_eq_some_iff.1 hk
    rw [ElementKind.ofKeyword?_eq_some_iff] at hword
    subst hword
    exact ⟨htakes, rfl⟩
  · rintro ⟨htakes, hkey⟩
    obtain ⟨rfl, rfl⟩ := Prod.mk.injEq .. ▸ hkey
    have hword : ElementKind.ofKeyword? o.kind.keyword = some o.kind :=
      ElementKind.ofKeyword?_eq_some_iff.2 rfl
    exact ⟨o.kind, Option.filter_eq_some_iff.2 ⟨hword, htakes⟩, rfl⟩

theorem DeprecationRow.owner?_eq_some_iff {r : DeprecationRow} {o : Owner} :
    r.owner? = some o ↔ o.kind.takesDeprecation = true ∧ r.key = o.key :=
  Owner.eq_some_iff_of_filter

theorem ArgumentRow.owner?_eq_some_iff {r : ArgumentRow} {o : Owner} :
    r.owner? = some o ↔ o.kind.takesArguments = true ∧ r.key.1 = o.key :=
  Owner.eq_some_iff_of_filter

/-- An element that the store has is referred to, and it is of a kind that takes such references. -/
def Store.RefersTo (s : Store) (takes : ElementKind → Bool) (reference : String × Int) : Prop :=
  ∃ o : Owner, takes o.kind = true ∧ reference = o.key ∧ (s.table o.kind).has o.id = true

namespace Store.RefersTo

variable {s s' : Store} {takes : ElementKind → Bool} {reference : String × Int}

/-- A reference stays one while no element is dropped. -/
theorem mono (h : s.RefersTo takes reference)
    (hhas : ∀ k id, (s.table k).has id = true → (s'.table k).has id = true) :
    s'.RefersTo takes reference := by
  obtain ⟨o, htakes, href, hid⟩ := h
  exact ⟨o, htakes, href, hhas _ _ hid⟩

theorem put (h : s.RefersTo takes reference) (p : Put) : (s.put p).RefersTo takes reference :=
  h.mono fun _ _ hid => s.has_put p hid

/-- The row of an entry that was put can be referred to. -/
theorem put_self (p : Put) (htakes : takes p.kind = true) :
    (s.put p).RefersTo takes (Owner.key ⟨p.kind, s.idOf p⟩) := by
  obtain ⟨row, hrow⟩ := Put.Stored.put_self (p := p) (s := s)
  exact ⟨_, htakes, rfl, Table.has_iff.2 ⟨_, Table.mem_of_at? hrow, rfl⟩⟩

/-- A reference to none of the elements that go stays one. -/
theorem dropElements (h : s.RefersTo takes reference) {k : ElementKind} {p : k.Row → Bool}
    (hkept : (takes k &&
      (reference.1 == k.keyword && ((s.table k).idsWhere p).contains reference.2)) = false) :
    (s.dropElements k p).RefersTo takes reference := by
  obtain ⟨o, htakes, rfl, hid⟩ := h
  refine ⟨o, htakes, rfl, ?_⟩
  obtain ⟨l, id⟩ := o
  dsimp only at hid ⊢
  by_cases hkind : l = k
  · subst hkind
    obtain ⟨r, hr, rfl⟩ := Table.has_iff.1 hid
    rw [dropElements_table]
    refine Table.has_iff.2 ⟨r, Table.mem_keep.2 ⟨hr, ?_⟩, rfl⟩
    cases hp : p r.row with
    | false => rfl
    | true =>
      -- Else the reference would have gone with the element, which takes such references.
      have hgone : r.id ∈ (s.table l).idsWhere p :=
        List.mem_map_of_mem (List.mem_filter.2 ⟨hr, hp⟩)
      simp [Owner.key, hgone, htakes] at hkept
  · rw [dropElements_table_of_ne s k p hkind]
    exact hid

end Store.RefersTo

/-- Every deprecation and every argument refers to an element that may have it. -/
structure Store.OwnersThere (s : Store) : Prop where
  deprecations : ∀ r ∈ s.deprecations.records,
    s.RefersTo ElementKind.takesDeprecation r.row.key
  arguments : ∀ r ∈ s.arguments.records,
    s.RefersTo ElementKind.takesArguments r.row.key.1

namespace Store.OwnersThere

variable {s s' : Store}

theorem empty : OwnersThere {} where
  deprecations r hr := by cases hr
  arguments r hr := by cases hr

/-- Owners stay where no elements are dropped and no references are made. -/
theorem congr (h : s.OwnersThere)
    (hhas : ∀ k id, (s.table k).has id = true → (s'.table k).has id = true)
    (hdeprecations : s'.deprecations = s.deprecations) (harguments : s'.arguments = s.arguments) :
    s'.OwnersThere where
  deprecations r hr := (h.deprecations r (hdeprecations ▸ hr)).mono hhas
  arguments r hr := (h.arguments r (harguments ▸ hr)).mono hhas

theorem put (h : s.OwnersThere) (p : Put) : (s.put p).OwnersThere where
  deprecations r hr := by
    rw [put_deprecations] at hr
    split at hr
    · next htakes =>
      rcases mem_withDeprecation hr with hkey | hmem
      · rw [hkey]
        exact .put_self p htakes
      · exact (h.deprecations r hmem).put p
    · exact (h.deprecations r hr).put p
  arguments r hr := by
    rw [put_arguments] at hr
    split at hr
    · next htakes =>
      rcases mem_withArguments hr with hkey | hmem
      · rw [hkey]
        exact .put_self p htakes
      · exact (h.arguments r hmem).put p
    · exact (h.arguments r hr).put p

theorem dropElements (h : s.OwnersThere) (k : ElementKind) (p : k.Row → Bool) :
    (s.dropElements k p).OwnersThere where
  deprecations r hr := by
    rw [dropElements_deprecations] at hr
    obtain ⟨hmem, hkept⟩ := Table.mem_keep.1 hr
    exact (h.deprecations r hmem).dropElements (Bool.not_eq_true' _ ▸ hkept)
  arguments r hr := by
    rw [dropElements_arguments] at hr
    obtain ⟨hmem, hkept⟩ := Table.mem_keep.1 hr
    exact (h.arguments r hmem).dropElements (Bool.not_eq_true' _ ▸ hkept)

/-- Links refer to no deprecations and arguments, and rows of classes keep their ids. -/
theorem withClasses (h : s.OwnersThere) (f : Int → ClassRow → ClassRow) :
    { s with classes := s.classes.mapRows f }.OwnersThere := by
  refine h.congr (fun k id hid => ?_) rfl rfl
  cases k with
  | classes => exact Table.has_mapRows.trans hid
  | interfaces | classMethods | interfaceMethods | classProperties | functions | aliases =>
    exact hid

theorem step (hstep : Step s s') (h : s.OwnersThere) : s'.OwnersThere := by
  cases hstep with
  | addSoftware row hslug hnew => exact h.congr (fun k _ hid => by cases k <;> exact hid) rfl rfl
  | addVersion row hsoftware hnew => exact h.congr (fun k _ hid => by cases k <;> exact hid) rfl rfl
  | deleteVersion version =>
    refine deleteVersion_keeps version (fun s k p h => h.dropElements k p)
      (fun s cs is h => ?_) (fun s versions h => ?_) h
    · exact (h.withClasses _).congr (fun k _ hid => by cases k <;> exact hid) rfl rfl
    · exact h.congr (fun k _ hid => by cases k <;> exact hid) rfl rfl
  | put p howner => exact h.put p
  | linkClass r e hr =>
    exact (h.withClasses _).congr (fun k _ hid => by cases k <;> exact hid) rfl rfl
  | linkInterface r e hr => exact h.congr (fun k _ hid => by cases k <;> exact hid) rfl rfl

end Store.OwnersThere

/-! ## Reachable stores -/

/-- Every deprecation and every argument belongs to an element that is there, and none of them
occurs twice. -/
structure Store.OwnedOnce (s : Store) : Prop where
  deprecations : ∀ r ∈ s.deprecations.records, ∃ o, r.row.owner? = some o ∧
    (s.table o.kind).has o.id = true
  arguments : ∀ r ∈ s.arguments.records, ∃ o, r.row.owner? = some o ∧
    o.kind ∈ [.classMethods, .interfaceMethods, .functions] ∧ (s.table o.kind).has o.id = true
  /-- No element has two deprecations. -/
  oneDeprecation : ∀ o, s.deprecations.count (·.isOf o) ≤ 1
  /-- No element has two arguments of one name. -/
  oneArgument : ∀ o name, s.arguments.count (fun r => r.isOf o && r.name == name) ≤ 1

/-- A document with one function, which is deprecated. -/
def Document.deprecated : Document where
  files := Dictionary.ofList [("old.php",
    { functions := [
        { name := "old"
          ns := "Library"
          arguments := [{ name := "first" }, { name := "second" }]
          docblock := { tags := [{ name := "deprecated", description := "", version := "2.0" }] } }] })]

namespace Reachable

variable {s : Store}

theorem ownersThere (h : Reachable s) : s.OwnersThere := h.of_step .empty fun _ _ => .step

/-- In a reachable store no deprecation and no argument is astray or there twice. -/
theorem ownedOnce (h : Reachable s) : s.OwnedOnce where
  deprecations r hr := by
    obtain ⟨o, htakes, hkey, hid⟩ := h.ownersThere.deprecations r hr
    exact ⟨o, DeprecationRow.owner?_eq_some_iff.2 ⟨htakes, hkey⟩, hid⟩
  arguments r hr := by
    obtain ⟨o, htakes, hkey, hid⟩ := h.ownersThere.arguments r hr
    refine ⟨o, ArgumentRow.owner?_eq_some_iff.2 ⟨htakes, hkey⟩, ?_, hid⟩
    generalize o.kind = k at htakes
    cases k <;> first | decide | cases htakes
  oneDeprecation _ := h.hasUniqueKeys.deprecations.count_le_one fun _ => DeprecationRow.isOf_iff.1
  oneArgument o name := by
    refine h.hasUniqueKeys.arguments.count_le_one (c := (o.key, name)) fun row hrow => ?_
    rw [Bool.and_eq_true, ArgumentRow.isOf_iff, beq_iff_eq] at hrow
    exact Prod.ext hrow.1 hrow.2

/-- Two arguments and a deprecation of one function are owned once. -/
theorem ownedOnce_deprecated :
    let s := Store.oneVersion.runAll [.importDocument 1 Document.deprecated]
    s.deprecations.records.length = 1 ∧ s.arguments.records.length = 2 ∧ s.OwnedOnce :=
  ⟨by decide +kernel, by decide +kernel, ownedOnce (reachable_oneVersion.runAll _)⟩

end Reachable
end ApiCatalog
