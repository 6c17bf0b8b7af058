import ApiCatalog.Proofs.Store.Consistent

/-!
# Names, namespaces and short names

Classes, interfaces and functions keep their qualified name beside the namespace and the short name
it is made of. All three columns are written when a row is made. A later entry of the same key
writes the name anew and leaves the other two, and no namespace and an empty one make the same key:
so what the name is made of is the namespace of the row or that of the last entry, which are equal
as long as nothing writes an empty one (`ElementRow.IsNamed.refresh`).

An entry writes an empty namespace if it spells one by separators alone; then the columns may
disagree.

An invariant of this kind is checked once for the row that an entry makes and once for the row that
it refreshes (`EntryLaw`), and holds then behind all calls (`Store.EveryElement`).
-/

namespace ApiCatalog

/-! ## Elements with a namespace -/

namespace ElementKind

/-- What is kept of a class, interface or function as an element of a namespace. -/
def element? : (k : ElementKind) → k.Row → Option ElementRow
  | .classes, r => some r.toElementRow
  | .interfaces, r => some r
  | .functions, r => some r.toElementRow
  | _, _ => none

/-- The namespace that the entry of a class, interface or function writes. -/
def namespace? : (k : ElementKind) → k.Entry → Option String
  | .classes, e => some e.ns
  | .interfaces, e => some e.ns
  | .functions, e => some e.ns
  | _, _ => none

variable {k : ElementKind} {e : k.Entry} {owner : Int} {row : k.Row} {r : ElementRow}

theorem key_of_element? (h : k.element? row = some r) : k.key row = r.key := by
  cases k <;> cases h <;> rfl

/-- The element of a fresh row is made of the entry. -/
theorem element?_fresh (h : k.element? (k.fresh e owner) = some r) :
    ∃ ns ∈ k.namespace? e, r = .make (k.entryName e) ns (k.docblock e) owner := by
  cases k <;> cases h <;> exact ⟨_, rfl, rfl⟩

/-- The element of a refreshed row is the refreshed element of the row. -/
theorem element?_refresh (h : k.element? (k.refresh e row) = some r) :
    ∃ ns ∈ k.namespace? e, ∃ q, k.element? row = some q ∧
      r = q.refresh (k.entryName e) ns (k.docblock e) := by
  cases k <;> cases h <;> exact ⟨_, rfl, _, rfl, rfl⟩

/-- What has a namespace in its entries has an element in its rows. -/
theorem exists_element? {ns : String} (h : k.namespace? e = some ns) (row : k.Row) :
    ∃ r, k.element? row = some r := by
  cases k <;> first | exact ⟨_, rfl⟩ | cases h

theorem entryKey_of_namespace? {ns : String} (h : k.namespace? e = some ns) (owner : Int) :
    k.entryKey e owner = ⟨owner, (storedNamespace ns).getD "", k.entryName e⟩ := by
  cases k <;> cases h <;> rfl

end ElementKind

/-- What holds of the element that an entry is made to, and of the element of its key that the entry
refreshes. Only entries that satisfy `ok` count. -/
structure EntryLaw (ok : Put → Prop) (P : ElementKind → ElementRow → Prop) : Prop where
  make : ∀ p ns, ok p → p.kind.namespace? p.entry = some ns →
    P p.kind (.make (p.kind.entryName p.entry) ns p.docblock p.owner)
  refresh : ∀ p ns r, ok p → p.kind.namespace? p.entry = some ns → P p.kind r →
    r.key = ⟨p.owner, (storedNamespace ns).getD "", p.kind.entryName p.entry⟩ →
      P p.kind (r.refresh (p.kind.entryName p.entry) ns p.docblock)

/-- All classes, interfaces and functions satisfy `P`. -/
def Store.EveryElement (P : ElementKind → ElementRow → Prop) (s : Store) : Prop :=
  ∀ k, ∀ r ∈ (s.table k).records, ∀ e ∈ k.element? r.row, P k e

namespace Store.EveryElement

variable {P : ElementKind → ElementRow → Prop} {ok : Put → Prop} {s s' : Store} {version : Int}
  {d : Document}

theorem empty : EveryElement P {} := by
  intro k r hr
  cases k <;> cases hr

/-- A law of all elements is kept where each of them was an element before. -/
theorem of_kept (h : s.EveryElement P) (hkept : ∀ k, ∀ r ∈ (s'.table k).records,
    ∃ q ∈ (s.table k).records, k.element? r.row = k.element? q.row) : s'.EveryElement P := by
  intro k r hr e he
  obtain ⟨q, hq, heq⟩ := hkept k r hr
  exact h k q hq e (heq ▸ he)

theorem put (law : EntryLaw ok P) (h : s.EveryElement P) {p : Put} (hp : ok p) :
    (s.put p).EveryElement P := by
  intro k r hr e he
  by_cases hkind : k = p.kind
  · subst hkind
    rw [put_table] at hr
    -- The record is made of the entry, or refreshed with it, or one of another key.
    rcases Table.mem_write_cases hr with rfl | ⟨q, hq, hkey, rfl⟩ | hmem
    · obtain ⟨ns, hns, rfl⟩ := ElementKind.element?_fresh he
      exact law.make p ns hp hns
    · obtain ⟨ns, hns, old, hold, rfl⟩ := ElementKind.element?_refresh he
      have holdKey : old.key = p.kind.entryKey p.entry p.owner :=
        (ElementKind.key_of_element? hold).symm.trans hkey
      rw [ElementKind.entryKey_of_namespace? hns] at holdKey
      exact law.refresh p ns old hp hns (h _ q hq old hold) holdKey
    · exact h _ r hmem e he
  · rw [put_table_of_ne s p hkind] at hr
    exact h k r hr e he

/-- What a class extends is no part of it as an element of a namespace. -/
theorem linkClass (h : s.EveryElement P) (id version : Int) (e : ClassEntry) :
    (s.linkClass id version e).EveryElement P := by
  refine h.of_kept fun k r hr => ?_
  by_cases hk : k = .classes
  · subst hk
    obtain ⟨q, hq, rfl⟩ := mem_classes_linkClass.1 hr
    refine ⟨q, hq, ?_⟩
    dsimp only
    split <;> rfl
  · refine ⟨r, ?_, rfl⟩
    cases k <;> first | exact absurd rfl hk | exact hr

theorem linkInterface (h : s.EveryElement P) (id version : Int) (e : InterfaceEntry) :
    (s.linkInterface id version e).EveryElement P :=
  h.of_kept fun k r hr => ⟨r, by cases k <;> exact hr, rfl⟩

theorem deleteVersion (h : s.EveryElement P) (version : Int) :
    (s.deleteVersion version).EveryElement P := by
  refine h.of_kept fun k r hr => ?_
  by_cases hk : k = .classes
  · subst hk
    obtain ⟨q, hq, -, rfl⟩ := mem_deleteVersion_classes.1 hr
    exact ⟨q, hq, rfl⟩
  · exact ⟨r, ((mem_deleteVersion_table hk).1 hr).1, rfl⟩

theorem withDocument (law : EntryLaw ok P) (h : s.EveryElement P)
    (hversion : s.versions.has version = true)
    (hd : ∀ (s : Store) p, s.Puts version d p → ok p) :
    (s.withDocument version d).EveryElement P := by
  have hsteps := ImportSteps.withDocument (d := d) hversion
  generalize s.withDocument version d = s' at hsteps ⊢
  -- What an entry needs is asked for in every store that the import passes through.
  induction hsteps with
  | refl => exact h
  | tail _ hstep ih =>
    cases hstep with
    | put hp => exact ih.put law (hd _ _ hp)
    | linkClass e id _ _ => exact ih.linkClass id version e
    | linkInterface e id _ _ => exact ih.linkInterface id version e

end Store.EveryElement

/-! ## What documents and calls write -/

/-- The entries of a document that belong to its version. -/
def Document.elementEntries (d : Document) : (k : ElementKind) → List k.Entry
  | .classes => d.classes
  | .interfaces => d.interfaces
  | .functions => d.functions
  | .aliases => d.aliases
  | _ => []

/-- The namespaces that a document writes. -/
def Document.namespaces (d : Document) : List String :=
  d.classes.map ClassEntry.ns ++ d.interfaces.map InterfaceEntry.ns ++
    d.functions.map FunctionEntry.ns

/-- The namespaces that a call writes. -/
def Call.namespaces : Call → List String
  | reconcile k e _ => (k.namespace? e).toList
  | importInto _ d | importDocument _ d => d.namespaces
  | _ => []

/-- What an import puts into a namespace is an entry of the document for its version. -/
theorem Store.Puts.mem_elementEntries {s : Store} {version : Int} {d : Document} {p : Put}
    {ns : String} (h : s.Puts version d p) (hns : p.kind.namespace? p.entry = some ns) :
    p.entry ∈ d.elementEntries p.kind ∧ p.owner = version := by
  cases h with
  | element hversion hp =>
    unfold Document.elementPuts Document.otherPuts at hp
    simp only [List.mem_append, List.mem_map] at hp
    rcases hp with (⟨e, he, rfl⟩ | ⟨e, he, rfl⟩) | ⟨e, he, rfl⟩ | ⟨e, he, rfl⟩ <;> exact ⟨he, rfl⟩
  | classMember he hid hp =>
    rcases List.mem_append.1 hp with hp | hp <;> obtain ⟨m, -, rfl⟩ := List.mem_map.1 hp <;>
      cases hns
  | interfaceMember he hid hp =>
    obtain ⟨m, -, rfl⟩ := List.mem_map.1 hp
    cases hns

theorem Document.mem_namespaces {d : Document} {k : ElementKind} {e : k.Entry} {ns : String}
    (he : e ∈ d.elementEntries k) (hns : k.namespace? e = some ns) : ns ∈ d.namespaces := by
  unfold namespaces
  rw [List.mem_append, List.mem_append]
  cases k with
  | classes => exact .inl (.inl (List.mem_map.2 ⟨e, he, Option.some_inj.1 hns⟩))
  | interfaces => exact .inl (.inr (List.mem_map.2 ⟨e, he, Option.some_inj.1 hns⟩))
  | functions => exact .inr (List.mem_map.2 ⟨e, he, Option.some_inj.1 hns⟩)
  | classMethods | interfaceMethods | classProperties | aliases => cases hns

/-! ## Calls -/

/-- The namespace that the entry writes, if any, satisfies `ok`. -/
def Put.Writes (ok : String → Prop) (p : Put) : Prop := ∀ ns ∈ p.kind.namespace? p.entry, ok ns

namespace Store.EveryElement

variable {P : ElementKind → ElementRow → Prop} {ok : String → Prop} {s : Store}

/-- A call keeps what its entries keep. -/
theorem run (law : EntryLaw (Put.Writes ok) P) (h : s.EveryElement P) (c : Call)
    (hc : ∀ ns ∈ c.namespaces, ok ns) : (c.run s).EveryElement P := by
  have hdocument : ∀ version d, (∀ ns ∈ Document.namespaces d, ok ns) →
      s.versions.has version = true → (s.withDocument version d).EveryElement P := by
    intro version d hd hversion
    refine h.withDocument law hversion fun _ p hp ns hns => hd ns ?_
    exact Document.mem_namespaces (hp.mem_elementEntries hns).1 hns
  have hleads := c.leads s
  generalize c.run s = s' at hleads ⊢
  cases hleads with
  | unchanged => exact h
  | addSoftware | addVersion => exact h.of_kept fun k r hr => ⟨r, by cases k <;> exact hr, rfl⟩
  | deleteVersion version => exact h.deleteVersion version
  | reconcile k e owner => exact h.put law fun ns hns => hc ns (Option.mem_toList.2 hns)
  | linkClass r e => exact h.linkClass _ _ _
  | linkInterface r e => exact h.linkInterface _ _ _
  | importInto version d hversion => exact hdocument version d hc hversion
  | importDocument version d hversion => exact hdocument version d hc hversion

theorem runAll (law : EntryLaw (Put.Writes ok) P) (h : s.EveryElement P) {calls : List Call}
    (hcalls : ∀ c ∈ calls, ∀ ns ∈ c.namespaces, ok ns) : (s.runAll calls).EveryElement P := by
  induction calls generalizing s with
  | nil => exact h
  | cons c calls ih =>
    refine ih (h.run law c (hcalls c List.mem_cons_self)) fun c' hc' => ?_
    exact hcalls c' (List.mem_cons_of_mem _ hc')

end Store.EveryElement

/-! ## Names -/

namespace ElementRow

/-- The name is made of the namespace and the short name beside it, and the namespace is not
empty. -/
structure IsNamed (r : ElementRow) : Prop where
  name : r.name = qualifiedName r.ns r.shortName
  ns_ne : r.ns ≠ some ""

/-- Namespaces that are not empty are told apart by their texts. -/
theorem eq_of_getD_eq {ns ns' : Option String} (h : ns ≠ some "") (h' : ns' ≠ some "")
    (heq : ns.getD "" = ns'.getD "") : ns = ns' := by
  cases ns with
  | none =>
    cases ns' with
    | none => rfl
    | some ns' => exact absurd (congrArg some heq.symm) h'
  | some ns =>
    cases ns' with
    | none => exact absurd (congrArg some heq) h
    | some ns' => exact congrArg some heq

/-- Where no namespace is empty, an entry of the same key writes the same namespace. -/
theorem IsNamed.refresh {r : ElementRow} {name ns : String} {version : Int} (h : r.IsNamed)
    (hns : storedNamespace ns ≠ some "")
    (hkey : r.key = ⟨version, (storedNamespace ns).getD "", name⟩) (d : Docblock) :
    (r.refresh name ns d).IsNamed := by
  obtain ⟨-, hscope, hname⟩ := NaturalKey.mk.injEq .. ▸ hkey
  refine ⟨?_, h.ns_ne⟩
  show qualifiedName (storedNamespace ns) name = qualifiedName r.ns r.shortName
  rw [eq_of_getD_eq h.ns_ne hns hscope, hname]

theorem entryLaw_hasName : EntryLaw (Put.Writes fun _ => True) fun _ => HasName where
  make _ ns _ _ := hasName_make _ ns _ _
  refresh _ _ _ _ _ _ hkey := hasName_refresh _ hkey

theorem entryLaw_isNamed :
    EntryLaw (Put.Writes fun ns => storedNamespace ns ≠ some "") fun _ => IsNamed where
  make _ ns hp hns := ⟨rfl, hp ns hns⟩
  refresh _ ns _ hp hns hr hkey := hr.refresh (hp ns hns) hkey _

end ElementRow

/-- Whatever calls lead to a store, every class, interface and function is named by its short name
under its namespace, where no namespace may stand for an empty one or the other way round. Where no
entry spells a namespace by separators alone, the name is made of just the columns beside it. -/
theorem named_runAll (calls : List Call) :
    (Store.runAll {} calls).EveryElement (fun _ => ElementRow.HasName) ∧
      ((∀ c ∈ calls, ∀ ns ∈ c.namespaces, storedNamespace ns ≠ some "") →
        (Store.runAll {} calls).EveryElement fun _ r =>
          r.name = qualifiedName r.ns r.shortName) := by
  refine ⟨.runAll ElementRow.entryLaw_hasName .empty fun _ _ _ _ => trivial, fun hcalls => ?_⟩
  have hnamed := Store.EveryElement.empty.runAll ElementRow.entryLaw_isNamed hcalls
  exact fun k r hr e he => (hnamed k r hr e he).name

/-- It is so behind an import of elements in a namespace and of a function in none. -/
theorem named_runAll_animals :
    let calls : List Call := [.addSoftware "Library" "library", .addVersion 1 "1.0" none,
      .importDocument 1 .animals]
    (Store.runAll {} calls).functions.records.map (·.row.name) = ["feed"] ∧
      (Store.runAll {} calls).classes.records.map (·.row.name) =
        ["Animals\\Cat", "Animals\\Animal"] ∧
      (Store.runAll {} calls).EveryElement fun _ r => r.name = qualifiedName r.ns r.shortName :=
  ⟨by decide +kernel, by decide +kernel, (named_runAll _).2 (by decide +kernel)⟩

/-- A document with two classes of one name. Their namespaces are spelled `global` and by no more
than a separator. -/
def Document.tables : Document where
  files := Dictionary.ofList [
    ("a.php", { classes := [{ name := "Table", ns := "global" }] }),
    ("b.php", { classes := [{ name := "Table", ns := "\\" }] })]

/-- The second class is found as the first one, which has no namespace, and takes the name of its
own, which is empty. -/
theorem not_named_tables :
    let s := Store.oneVersion.runAll [.importDocument 1 .tables]
    s.classes.records.map (fun r => (r.row.name, r.row.ns, r.row.shortName)) =
        [("\\Table", none, "Table")] ∧
      ¬∀ r ∈ s.classes.records, r.row.name = qualifiedName r.row.ns r.row.shortName := by
  decide +kernel

end ApiCatalog
