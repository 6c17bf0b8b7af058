import ApiCatalog.Proofs.Store.Confined

/-!
# One entry touches one element

An entry is reconciled under its owner if that is there, and else nothing happens. What is written
is the row of the entry's natural key, the deprecation of that row and its arguments
(`Store.Reconciled`). Elements of other kinds may have the same id: they keep their deprecations and
arguments, as an owner of these is a kind and an id.

The frame is that of a put (`Store.SameOutside.put`), and that a second call finds all as the entry
says is `Put.Settled.put_eq_self`.
-/

namespace ApiCatalog

namespace Store

variable {s : Store}

/-- From the first store to the second, an entry was reconciled, and its record is `r`. -/
structure Reconciled (s : Store) (p : Put) (r : Record p.kind.Row) (s' : Store) : Prop where
  stored : r ∈ (s'.table p.kind).records
  key : p.kind.key r.row = p.key
  /-- The row, its deprecation and its arguments are as the entry says. -/
  settled : p.Settled s' r.id
  /-- The row of the key keeps its id, if there was one. -/
  kept : ∀ q ∈ (s.table p.kind).records, p.kind.key q.row = p.key → q.id = r.id
  /-- Else the row gets an id that was never given. -/
  new : (∀ q ∈ (s.table p.kind).records, p.kind.key q.row ≠ p.key) →
    (s.table p.kind).lastId < r.id
  software : s'.software = s.software
  versions : s'.versions = s.versions
  /-- No other row differs. -/
  rows : ∀ (k : ElementKind) (q : Record k.Row), (⟨k, q.id⟩ : Owner) ≠ ⟨p.kind, r.id⟩ →
    (q ∈ (s'.table k).records ↔ q ∈ (s.table k).records)
  /-- No deprecation differs but that of the row. -/
  deprecations : ∀ q : Record DeprecationRow, q.row.owner? ≠ some ⟨p.kind, r.id⟩ →
    (q ∈ s'.deprecations.records ↔ q ∈ s.deprecations.records)
  /-- No argument differs but those of the row. -/
  arguments : ∀ q : Record ArgumentRow, q.row.owner? ≠ some ⟨p.kind, r.id⟩ →
    (q ∈ s'.arguments.records ↔ q ∈ s.arguments.records)
  /-- Every other element has the deprecation that it had, also one of another kind with this id. -/
  deprecationOf : ∀ o : Owner, o ≠ ⟨p.kind, r.id⟩ →
    s'.deprecations.records.filter (·.row.isOf o) = s.deprecations.records.filter (·.row.isOf o)
  /-- Every other element has the arguments that it had, also one of another kind with this id. -/
  argumentsOf : ∀ o : Owner, o ≠ ⟨p.kind, r.id⟩ →
    s'.arguments.records.filter (·.row.isOf o) = s.arguments.records.filter (·.row.isOf o)
  /-- Every class extends what it extended. -/
  parent : ∀ q ∈ s.classes.records, ∀ q' ∈ s'.classes.records, q'.id = q.id →
    q'.row.parent = q.row.parent
  classInterfaces : s'.classInterfaces = s.classInterfaces
  interfaceParents : s'.interfaceParents = s.interfaceParents

/-- An entry says nothing about what its class extends. -/
theorem parent_put (p : Put) {q q' : Record ClassRow} (hq : q ∈ s.classes.records)
    (hq' : q' ∈ (s.put p).classes.records) (hid : q'.id = q.id) : q'.row.parent = q.row.parent := by
  obtain ⟨k, e, owner⟩ := p
  cases k with
  | classes =>
    have hwrite : q' ∈ (s.classes.write (Put.write ⟨.classes, e, owner⟩)).records := hq'
    rcases Table.mem_write_cases hwrite with rfl | ⟨old, hold, -, rfl⟩ | hmem
    · exact absurd hid.symm (Table.id_ne_nextId hq)
    · rw [Table.eq_of_id_eq hq hold hid.symm]
      rfl
    · rw [Table.eq_of_id_eq hq hmem hid.symm]
  | interfaces | classMethods | interfaceMethods | classProperties | functions | aliases =>
    rw [Table.eq_of_id_eq hq hq' hid.symm]

/-- A put entry is reconciled, where no two rows share their key. -/
theorem reconciled_put (hkeys : s.HasUniqueKeys) {p : Put} {row : p.kind.Row}
    (hat : ((s.put p).table p.kind).at? p.kind.key p.key = some ⟨s.idOf p, row⟩) :
    s.Reconciled p ⟨s.idOf p, row⟩ (s.put p) := by
  have hframe := SameOutside.put s p
  -- Each field is read off the frame of the single put.
  refine {
    stored := Table.mem_of_at? hat
    key := Table.key_of_at? hat
    settled := .put_self
    kept := fun q hq hkey => ?_
    new := fun hnone => ?_
    software := hframe.software
    versions := hframe.versions
    rows := fun k q hne => hframe.elements k q hne
    deprecations := fun q hne => hframe.deprecations q fun o ho htouched => ?_
    arguments := fun q hne => hframe.arguments q fun o ho htouched => ?_
    deprecationOf := fun o hne => hframe.deprecations_of hne
    argumentsOf := fun o hne => hframe.arguments_of hne
    parent := fun q hq q' hq' hid => parent_put p hq hq' hid
    classInterfaces := s.put_classInterfaces p
    interfaceParents := s.put_interfaceParents p }
  · exact (Table.idAt_of_at? ((hkeys.elements p.kind).at?_eq_some_iff.2 ⟨hq, hkey⟩)).symm
  -- A new row has the next id, and every row there has a smaller one.
  · have hid : s.idOf p = (s.table p.kind).nextId := by
      unfold idOf Table.idAt
      rw [Table.at?_eq_none_iff.2 hnone]
    have hnext : (s.table p.kind).lastId < (s.table p.kind).nextId := Int.lt_succ _
    rw [← hid] at hnext
    exact hnext
  · rw [htouched] at ho
    exact hne ho
  · rw [htouched] at ho
    exact hne ho

end Store

/-- Reconciling an entry fails and changes nothing where its owner is missing. Else it gives the
record of the entry and changes no more than its row, deprecation and arguments, and the same call
once more gives the same record and changes nothing. -/
theorem Reachable.reconcile_confined {s : Store} (h : Reachable s) (p : Put) :
    (s.hasOwner p.kind.ownerKind p.owner = false →
      (Change.reconcile p.kind p.entry p.owner).apply s =
        (.error (.noOwner p.kind.title (p.kind.entryName p.entry) p.kind.ownerKind.tableName
          p.owner), s)) ∧
    (s.hasOwner p.kind.ownerKind p.owner = true →
      ∃ r s', (Change.reconcile p.kind p.entry p.owner).apply s = (.ok r, s') ∧
        (Change.reconcile p.kind p.entry p.owner).apply s' = (.ok r, s') ∧
        s.Reconciled p r s') := by
  refine ⟨Change.reconcile_apply_of_missing p, fun howner => ?_⟩
  obtain ⟨row, hfirst, hat⟩ := Change.reconcile_apply p howner
  have hreconciled := Store.reconciled_put h.hasUniqueKeys hat
  refine ⟨⟨s.idOf p, row⟩, s.put p, hfirst, ?_, hreconciled⟩
  -- The second call puts what is settled, under the id of the first, and so reads the same row.
  obtain ⟨row', hsecond, hat'⟩ := Change.reconcile_apply p (s.hasOwner_put p howner)
  have hput : (s.put p).put p = s.put p := hreconciled.settled.put_eq_self
  have hid : (s.put p).idOf p = s.idOf p := Put.Stored.put_self.idOf_eq
  rw [hput, hid, hat, Option.some_inj, Record.mk.injEq] at hat'
  rw [hsecond, hput, hid, hat'.2]

/-- A document with a class method, an interface method and a function that all have the id 1, each
of them deprecated and with an argument. -/
def Document.moves : Document where
  files := Dictionary.ofList [("moves.php",
    { functions := [
        { name := "walk", ns := "global", arguments := [{ name := "far" }]
          docblock := { tags := [{ name := "deprecated", description := "Run." }] } }]
      classes := [
        { name := "Cat", ns := "Animals", parent := "Animals\\Animal"
          implements := ["Animals\\Walks"]
          methods := [
            { name := "walk", arguments := [{ name := "far" }]
              docblock := { tags := [{ name := "deprecated", description := "Run." }] } }] },
        { name := "Animal", ns := "Animals" }]
      interfaces := [
        { name := "Walks", ns := "Animals"
          methods := [
            { name := "walk", arguments := [{ name := "far" }]
              docblock := { tags := [{ name := "deprecated", description := "Run." }] } }] }] })]

/-- The interface method is no longer deprecated and takes another argument. Those of the class
method and of the function stay. -/
theorem Reachable.reconcile_confined_moves :
    let s := Store.oneVersion.runAll [.importDocument 1 .moves]
    let p : Put := ⟨.interfaceMethods, { name := "walk", arguments := [{ name := "slowly" }] }, 1⟩
    s.hasOwner .interfaces 1 = true ∧ s.hasOwner .interfaces 2 = false ∧
      s.arguments.records.map (fun r => (r.row.ownerWord, r.row.ownerId)) =
        [("class_method", 1), ("interface_method", 1), ("function", 1)] ∧
      (Change.reconcile .interfaceMethods { name := "walk" } 2).apply s =
        (.error (.noOwner "interface method" "walk" "interfaces" 2), s) ∧
      ∃ r s', (Change.reconcile p.kind p.entry p.owner).apply s = (.ok r, s') ∧
        (Change.reconcile p.kind p.entry p.owner).apply s' = (.ok r, s') ∧ s.Reconciled p r s' := by
  have hreachable := reachable_oneVersion.runAll [.importDocument 1 .moves]
  have hthere :
      (Store.oneVersion.runAll [.importDocument 1 .moves]).hasOwner .interfaces 1 = true := by
    decide +kernel
  have hmissing :
      (Store.oneVersion.runAll [.importDocument 1 .moves]).hasOwner .interfaces 2 = false := by
    decide +kernel
  exact ⟨hthere, hmissing, by decide +kernel,
    (hreachable.reconcile_confined ⟨.interfaceMethods, { name := "walk" }, 2⟩).1 hmissing,
    (hreachable.reconcile_confined
      ⟨.interfaceMethods, { name := "walk", arguments := [{ name := "slowly" }] }, 1⟩).2 hthere⟩

end ApiCatalog
