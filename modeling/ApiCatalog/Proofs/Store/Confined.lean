import ApiCatalog.Proofs.Store.Without

/-!
# An import changes what it declares and nothing else

`Store.ConfinedTo` says what an import into a version leaves alone. Nothing changes outside the
version. In the version every element stays under its id and its key, and one that the document does
not declare stays as it is, with its deprecation, its arguments and its links, also where its class
or interface is declared.

All of it comes from the one frame of an import, `Store.sameOutside_withDocument`: what is declared
behind the import was declared before, if it was there (`Store.Declares.of_kept`).
-/

namespace ApiCatalog

namespace Links

variable {l m : Links} {id : Int}

/-- Where links of one source are the same, they lead to the same targets. -/
theorem targets_congr (h : ∀ p : Int × Int, p.1 = id → (p ∈ l.pairs ↔ p ∈ m.pairs)) :
    l.targets id = m.targets id := by
  have hkeep : l.keep (·.1 == id) = m.keep (·.1 == id) :=
    keep_congr (fun p hp => h p (beq_iff_eq.1 hp)) fun _ _ => rfl
  exact congrArg (fun l => l.pairs.map Prod.snd) hkeep

end Links

namespace Store

variable {s s' : Store} {version : Int} {d : Document}

/-! ## Elements that stay the same -/

/-- The element is in the other store as it is, and so are its deprecation, its arguments and the
links that lead from it. -/
structure SameElement (s s' : Store) (k : ElementKind) (r : Record k.Row) : Prop where
  row : r ∈ (s'.table k).records
  deprecation : s'.deprecations.records.filter (·.row.isOf ⟨k, r.id⟩) =
    s.deprecations.records.filter (·.row.isOf ⟨k, r.id⟩)
  arguments : s'.arguments.records.filter (·.row.isOf ⟨k, r.id⟩) =
    s.arguments.records.filter (·.row.isOf ⟨k, r.id⟩)
  implements : k = .classes → s'.classInterfaces.targets r.id = s.classInterfaces.targets r.id
  parents : k = .interfaces → s'.interfaceParents.targets r.id = s.interfaceParents.targets r.id

/-- An element that is not touched keeps the deprecation that it has. -/
theorem SameOutside.deprecations_of {touched : Owner → Prop} (h : s.SameOutside touched s')
    {o : Owner} (hother : ¬touched o) :
    s'.deprecations.records.filter (·.row.isOf o) = s.deprecations.records.filter (·.row.isOf o) := by
  refine Table.records_keep_congr (fun q hof => h.deprecations q fun o' ho' => ?_) fun _ _ => rfl
  have hkey := (DeprecationRow.owner?_eq_some_iff.1 ho').2
  rw [Owner.key_inj (hkey.symm.trans (DeprecationRow.isOf_iff.1 hof))]
  exact hother

/-- An element that is not touched keeps the arguments that it has. -/
theorem SameOutside.arguments_of {touched : Owner → Prop} (h : s.SameOutside touched s')
    {o : Owner} (hother : ¬touched o) :
    s'.arguments.records.filter (·.row.isOf o) = s.arguments.records.filter (·.row.isOf o) := by
  refine Table.records_keep_congr (fun q hof => h.arguments q fun o' ho' => ?_) fun _ _ => rfl
  have hkey := (ArgumentRow.owner?_eq_some_iff.1 ho').2
  rw [Owner.key_inj (hkey.symm.trans (ArgumentRow.isOf_iff.1 hof))]
  exact hother

theorem SameOutside.sameElement {touched : Owner → Prop} (h : s.SameOutside touched s')
    {k : ElementKind} {r : Record k.Row} (hr : r ∈ (s.table k).records)
    (hother : ¬touched ⟨k, r.id⟩) : s.SameElement s' k r where
  row := (h.elements k r hother).2 hr
  deprecation := h.deprecations_of hother
  arguments := h.arguments_of hother
  implements hk := by
    subst hk
    refine Links.targets_congr fun l hl => h.classInterfaces l ?_
    rw [hl]
    exact hother
  parents hk := by
    subst hk
    refine Links.targets_congr fun l hl => h.interfaceParents l ?_
    rw [hl]
    exact hother

/-! ## Imports -/

/-- From the first store to the second, nothing changes but what the document declares in the
version. -/
structure ConfinedTo (version : Int) (d : Document) (s s' : Store) : Prop where
  software : s'.software = s.software
  versions : s'.versions = s.versions
  /-- All that lies outside the version is the same. -/
  outside : (s'.without version).SameRows (s.without version)
  /-- Every element stays under its id, told apart by the same columns. -/
  kept : s.KeepsElements s'
  /-- Every element that the document does not declare stays as it is. -/
  undeclared : ∀ k, ∀ r ∈ (s.table k).records, ¬s.Declares version d k (k.key r.row) →
    s.SameElement s' k r

theorem confinedTo_withDocument (hs : Reachable s) (hversion : s.versions.has version = true) :
    s.ConfinedTo version d (s.withDocument version d) := by
  have hframe := sameOutside_withDocument (d := d) hversion
  refine ⟨hframe.software, hframe.versions, ?_, hframe.keeps, fun k r hr hundeclared => ?_⟩
  · exact (hframe.mono fun o ho => ho.versionOf?).sameRows_without hs
  · refine hframe.sameElement hr ?_
    rintro ⟨r', hr', hid, hdeclares⟩
    -- The row that is declared behind the import is this one.
    obtain ⟨q, hq, hqid, hcolumns⟩ := hframe.keeps k r hr
    have hsame : r' = q := Table.eq_of_id_eq hr' hq (Eq.trans hid hqid.symm)
    rw [hsame] at hdeclares
    dsimp only at hdeclares
    rw [ElementKind.key_congr hcolumns] at hdeclares
    exact hundeclared (hdeclares.of_kept hframe.keeps (hs.hasOwners k r hr))

end Store

/-- An import into a version of a reachable store succeeds, and changes nothing but what the document
declares there; it does not matter whether the import is atomic. -/
theorem Reachable.import_confined {s : Store} (h : Reachable s) {version : Int}
    (hversion : s.versions.has version = true) (d : Document) :
    ∃ s', (Change.importInto version d).apply s = (.ok d.counts, s') ∧
      (Change.importDocument version d).apply s = (.ok d.counts, s') ∧
        s.ConfinedTo version d s' :=
  ⟨_, Change.importInto_apply hversion, Change.importDocument_apply hversion,
    Store.confinedTo_withDocument h hversion⟩

/-- It does so where two versions have the animals, and one of them gets a deprecated function. -/
theorem Reachable.import_confined_animals :
    let s := Store.oneVersion.runAll [.addVersion 1 "2.0" none, .importDocument 1 .animals,
      .importDocument 2 .animals]
    ∃ s', (Change.importInto 2 .deprecated).apply s = (.ok Document.deprecated.counts, s') ∧
      (Change.importDocument 2 .deprecated).apply s = (.ok Document.deprecated.counts, s') ∧
        s.ConfinedTo 2 .deprecated s' :=
  Reachable.import_confined (reachable_oneVersion.runAll _) (by decide +kernel) .deprecated

end ApiCatalog
