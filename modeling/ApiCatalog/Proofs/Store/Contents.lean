import ApiCatalog.Proofs.Store.Declared
import ApiCatalog.Proofs.Store.TextList
import ApiCatalog.Proofs.Store.Unique

/-!
# What an import stores

Behind an import the version has what the document declares, once each, as the last entry of it
says: `Store.ShowsDocument`. What was left of earlier imports does not show through. An element
that is no longer deprecated has no deprecation, and an argument that is no longer declared is
gone.

`Store.ShowsDocument` speaks about rows alone, and lists of types are compared as they are read
back. That it holds comes from what is settled (`Put.Settled`) and from unique keys.
-/

namespace ApiCatalog

/-! ## What rows show -/

/-- The record is the only one whose row satisfies `p`. -/
def Table.Only {α : Type} (t : Table α) (p : α → Prop) (r : Record α) : Prop :=
  r ∈ t.records ∧ p r.row ∧ ∀ q ∈ t.records, p q.row → q = r

/-- The types and description of the value returned are those of the last `return` tag, and empty
if there is none. -/
def Docblock.ShowsReturn (d : Docblock) (returnTypes returnDescription : String) : Prop :=
  match d.lastNamed? "return" with
  | some tag => TextList.read returnTypes = tag.types.getD [] ∧ returnDescription = tag.description
  | none => TextList.read returnTypes = [] ∧ returnDescription = ""

/-- An argument has its default as declared. Its description and types are those of the first
`param` tag for it, the declared type added unless it is listed, and empty if there is none. -/
def ArgumentEntry.Shows (a : ArgumentEntry) (d : Docblock) (row : ArgumentRow) : Prop :=
  row.default = a.default ∧
    match (d.named "param").find? (·.varName == some a.name) with
    | some tag =>
      let types := tag.types.getD []
      TextList.read row.types =
          (if a.type = "" ∨ a.type ∈ types then types else types ++ [a.type]) ∧
        row.description = tag.description
    | none => TextList.read row.types = [] ∧ row.description = ""

/-- The names and texts of an element of a version. -/
structure ElementRow.Shows (row : ElementRow) (ns name : String) (d : Docblock) : Prop where
  name : row.name = qualifiedName (storedNamespace ns) name
  summary : row.summary = d.summary
  description : row.description = d.description

/-- The texts and modifiers of a member. -/
structure MemberRow.Shows (row : MemberRow) (d : Docblock) (isStatic : Bool) (visibility : String) :
    Prop where
  summary : row.summary = d.summary
  description : row.description = d.description
  isStatic : row.isStatic = isStatic
  visibility : row.visibility = visibility

namespace Store

/-- The element has one deprecation, as the last `deprecated` tag says, or none if there is no
such tag. -/
def ShowsDeprecation (s : Store) (o : Owner) (d : Docblock) : Prop :=
  (s.deprecations.records.filter (·.row.isOf o)).map (fun r => (r.row.description, r.row.removal)) =
    (d.lastNamed? "deprecated").toList.map fun tag => (tag.description, tag.version)

/-- The element has the arguments that are declared, once each, as the last one of each name says,
and no other ones. -/
structure ShowsArguments (s : Store) (o : Owner) (arguments : List ArgumentEntry) (d : Docblock) :
    Prop where
  declared : ∀ r ∈ s.arguments.records, r.row.isOf o = true → r.row.name ∈ arguments.map (·.name)
  shown : ∀ name a, lastWith? ArgumentEntry.name name arguments = some a →
    ∃ r, s.arguments.Only (fun row => row.isOf o = true ∧ row.name = name) r ∧ a.Shows d r.row

variable (s : Store)

/-- The version has the class once, as the entry says. -/
structure ShowsClass (version : Int) (e : ClassEntry) (r : Record ClassRow) : Prop where
  only : s.classes.Only
    (fun row => row.version = version ∧ (row.ns.getD "", row.shortName) = e.key) r
  element : r.row.toElementRow.Shows e.ns e.name e.docblock
  isFinal : r.row.isFinal = e.isFinal
  isAbstract : r.row.isAbstract = e.isAbstract
  deprecation : s.ShowsDeprecation ⟨.classes, r.id⟩ e.docblock

/-- The version has the interface once, as the entry says. -/
structure ShowsInterface (version : Int) (e : InterfaceEntry) (r : Record ElementRow) : Prop where
  only : s.interfaces.Only
    (fun row => row.version = version ∧ (row.ns.getD "", row.shortName) = e.key) r
  element : r.row.Shows e.ns e.name e.docblock
  deprecation : s.ShowsDeprecation ⟨.interfaces, r.id⟩ e.docblock

/-- The version has the function once, as the entry says. -/
structure ShowsFunction (version : Int) (e : FunctionEntry) (r : Record FunctionRow) : Prop where
  only : s.functions.Only
    (fun row => row.version = version ∧ (row.ns.getD "", row.shortName) = e.key) r
  element : r.row.toElementRow.Shows e.ns e.name e.docblock
  returned : e.docblock.ShowsReturn r.row.returnTypes r.row.returnDescription
  deprecation : s.ShowsDeprecation ⟨.functions, r.id⟩ e.docblock
  arguments : s.ShowsArguments ⟨.functions, r.id⟩ e.arguments e.docblock

/-- The class has the method once, as the entry says. -/
structure ShowsClassMethod (owner : Int) (m : MethodEntry) (r : Record ClassMethodRow) : Prop where
  only : s.classMethods.Only (fun row => row.owner = owner ∧ row.name = m.name) r
  member : r.row.toMemberRow.Shows m.docblock m.isStatic m.visibility
  isFinal : r.row.isFinal = m.isFinal.getD false
  isAbstract : r.row.isAbstract = m.isAbstract.getD false
  returned : m.docblock.ShowsReturn r.row.returnTypes r.row.returnDescription
  deprecation : s.ShowsDeprecation ⟨.classMethods, r.id⟩ m.docblock
  arguments : s.ShowsArguments ⟨.classMethods, r.id⟩ m.arguments m.docblock

/-- The interface has the method once, as the entry says. -/
structure ShowsInterfaceMethod (owner : Int) (m : MethodEntry) (r : Record MethodRow) : Prop where
  only : s.interfaceMethods.Only (fun row => row.owner = owner ∧ row.name = m.name) r
  member : r.row.toMemberRow.Shows m.docblock m.isStatic m.visibility
  returned : m.docblock.ShowsReturn r.row.returnTypes r.row.returnDescription
  deprecation : s.ShowsDeprecation ⟨.interfaceMethods, r.id⟩ m.docblock
  arguments : s.ShowsArguments ⟨.interfaceMethods, r.id⟩ m.arguments m.docblock

/-- The class has the property once, as the entry says. -/
structure ShowsProperty (owner : Int) (m : PropertyEntry) (r : Record MemberRow) : Prop where
  only : s.classProperties.Only (fun row => row.owner = owner ∧ row.name = m.name) r
  member : r.row.Shows m.docblock m.isStatic m.visibility
  deprecation : s.ShowsDeprecation ⟨.classProperties, r.id⟩ m.docblock

/-- The version has every element of the document as its last entry says, and every class and
interface has the members that any of its entries declares, as the last entry of each says. -/
structure ShowsDocument (version : Int) (d : Document) : Prop where
  classes : ∀ c e, lastWith? ClassEntry.key c d.classes = some e →
    ∃ r, s.ShowsClass version e r ∧
      (∀ name m, lastWith? MethodEntry.name name (d.classMethods c) = some m →
        ∃ q, s.ShowsClassMethod r.id m q) ∧
      ∀ name m, lastWith? PropertyEntry.name name (d.classProperties c) = some m →
        ∃ q, s.ShowsProperty r.id m q
  interfaces : ∀ c e, lastWith? InterfaceEntry.key c d.interfaces = some e →
    ∃ r, s.ShowsInterface version e r ∧
      ∀ name m, lastWith? MethodEntry.name name (d.interfaceMethods c) = some m →
        ∃ q, s.ShowsInterfaceMethod r.id m q
  functions : ∀ c e, lastWith? FunctionEntry.key c d.functions = some e →
    ∃ r, s.ShowsFunction version e r
  aliases : ∀ c e, lastWith? AliasEntry.key c d.aliases = some e →
    ∃ r, s.aliases.Only (fun row => row.version = version ∧ (row.oldName, row.newName) = c) r ∧
      r.row.dropped = e.version

end Store

/-! ## From settled entries to rows -/

namespace Table

variable {α κ : Type} {key : α → κ} {t : Table α} {r : Record α} {c : κ}

/-- Where keys are unique, the record of a key is the only one with it. -/
theorem HasUniqueKeys.only [BEq κ] [LawfulBEq κ] (h : HasUniqueKeys key t)
    (hr : t.at? key c = some r) {p : α → Prop} (hp : ∀ row, p row ↔ key row = c) : t.Only p r := by
  refine ⟨mem_of_at? hr, (hp _).2 (key_of_at? hr), fun q hq hrow => ?_⟩
  exact h q hq r (mem_of_at? hr) (((hp _).1 hrow).trans (key_of_at? hr).symm)

/-- The only row with a property is all that filtering leaves. -/
theorem Only.filter_eq {p : α → Bool} (h : t.Only (fun row => p row = true) r) :
    t.records.filter (fun q => p q.row) = [r] := by
  obtain ⟨hmem, hrow, hother⟩ := h
  -- Records are told apart by their ids, so the one with this id is the only one kept.
  rw [← filter_key_of_nodup t.nodup_ids hmem]
  refine List.filter_congr fun q hq => ?_
  rw [Bool.eq_iff_iff, beq_iff_eq]
  constructor
  · intro hp
    rw [hother q hq hp]
  · intro hid
    rw [eq_of_id_eq hq hmem hid]
    exact hrow

end Table

/-- The columns of a return value show its tag. -/
theorem Docblock.shows_returnInfo (d : Docblock) :
    d.ShowsReturn (TextList.write (returnInfo d).1) (returnInfo d).2 := by
  unfold ShowsReturn returnInfo
  cases d.lastNamed? "return" with
  | none => exact ⟨TextList.read_write _, rfl⟩
  | some tag => exact ⟨TextList.read_write _, rfl⟩

/-- The columns of an argument show its entry and its tag. -/
theorem ArgumentEntry.shows_argumentInfo {a : ArgumentEntry} {d : Docblock} {row : ArgumentRow}
    (hdefault : row.default = a.default) (htypes : row.types = TextList.write (argumentInfo a d).1)
    (hdescription : row.description = (argumentInfo a d).2) : a.Shows d row := by
  unfold argumentInfo at htypes hdescription
  unfold Shows
  refine ⟨hdefault, ?_⟩
  cases htag : (d.named "param").find? (·.varName == some a.name) with
  | none =>
    rw [htag] at htypes hdescription
    exact ⟨htypes ▸ TextList.read_write _, hdescription⟩
  | some tag =>
    rw [htag] at htypes hdescription
    exact ⟨htypes ▸ TextList.read_write _, hdescription⟩

namespace Store

variable {s : Store} {id : Int}

/-- A settled deprecation shows the tag of the comment, or that there is none. -/
theorem showsDeprecation_of_settled (hkeys : s.HasUniqueKeys) {o : Owner} {d : Docblock}
    (h : DeprecationSettled o d s.deprecations) : s.ShowsDeprecation o d := by
  unfold DeprecationSettled at h
  unfold ShowsDeprecation
  cases htag : d.lastNamed? "deprecated" with
  | none =>
    rw [htag] at h
    have hnone : s.deprecations.records.filter (·.row.isOf o) = [] := by
      refine List.filter_eq_nil_iff.2 fun r hr hrow => ?_
      exact h r hr (DeprecationRow.isOf_iff.1 hrow)
    rw [hnone]
    rfl
  | some tag =>
    rw [htag] at h
    obtain ⟨id, row, hrow, hrenew⟩ := h
    -- The one row of the key is as a renewed row, which shows the tag.
    have honly := hkeys.deprecations.only hrow (p := fun row => row.isOf o = true)
      fun _ => DeprecationRow.isOf_iff
    rw [honly.filter_eq, ← hrenew]
    rfl

/-- Settled arguments show the entry's, each once. -/
theorem showsArguments_of_settled (hkeys : s.HasUniqueKeys) {o : Owner}
    {arguments : List ArgumentEntry} {d : Docblock}
    (h : ArgumentsSettled o arguments d s.arguments) : s.ShowsArguments o arguments d where
  declared r hr hrow := h.declared r hr (ArgumentRow.isOf_iff.1 hrow)
  shown name a ha := by
    obtain ⟨id, row, hrow, hrenew⟩ := h.settled name a ha
    refine ⟨⟨id, row⟩, hkeys.arguments.only hrow fun row => ?_, ?_⟩
    · rw [ArgumentRow.isOf_iff, ← key_of_lastWith? ha]
      exact (Prod.ext_iff (x := row.key) (y := (o.key, a.name))).symm
    · rw [← hrenew]
      exact ArgumentEntry.shows_argumentInfo rfl rfl rfl

/-- A settled entry has the one row of its key, which it would not change. -/
theorem only_of_settled (hkeys : s.HasUniqueKeys) {p : Put} (h : p.Settled s id) :
    ∃ row, p.write.renew row = row ∧ ∀ q : p.kind.Row → Prop,
      (∀ row, q row ↔ p.kind.key row = p.key) → (s.table p.kind).Only q ⟨id, row⟩ := by
  obtain ⟨row, hrow, hrenew⟩ := h.row
  exact ⟨row, hrenew, fun q hq => (hkeys.elements p.kind).only hrow hq⟩

/-- The columns of an element are its key. -/
theorem elementKey_eq_iff {row : ElementRow} {version : Int} {c : String × String} :
    row.version = version ∧ (row.ns.getD "", row.shortName) = c ↔ row.key = ⟨version, c.1, c.2⟩ := by
  unfold ElementRow.key
  rw [NaturalKey.mk.injEq, Prod.ext_iff]

theorem memberKey_eq_iff {row : MemberRow} {owner : Int} {name : String} :
    row.owner = owner ∧ row.name = name ↔ row.key = ⟨owner, "", name⟩ := by
  unfold MemberRow.key
  rw [NaturalKey.mk.injEq]
  simp

theorem aliasKey_eq_iff {row : AliasRow} {version : Int} {c : String × String} :
    row.version = version ∧ (row.oldName, row.newName) = c ↔ row.key = ⟨version, c.1, c.2⟩ := by
  unfold AliasRow.key
  rw [NaturalKey.mk.injEq, Prod.ext_iff]

/-! ## Elements and members -/

section
variable {version owner : Int} (hkeys : s.HasUniqueKeys)
include hkeys

/-- A settled class shows its entry. -/
theorem showsClass_of_settled {e : ClassEntry} (h : Put.Settled ⟨.classes, e, version⟩ s id) :
    ∃ row, s.ShowsClass version e ⟨id, row⟩ := by
  obtain ⟨row, hrenew, honly⟩ := only_of_settled hkeys h
  refine ⟨row, honly _ fun row => elementKey_eq_iff, ⟨?_, ?_, ?_⟩, ?_, ?_, ?_⟩
  · exact congrArg (·.name) hrenew.symm
  · exact congrArg (·.summary) hrenew.symm
  · exact congrArg (·.description) hrenew.symm
  · exact congrArg ClassRow.isFinal hrenew.symm
  · exact congrArg ClassRow.isAbstract hrenew.symm
  · exact showsDeprecation_of_settled hkeys (h.deprecation rfl)

theorem showsInterface_of_settled {e : InterfaceEntry}
    (h : Put.Settled ⟨.interfaces, e, version⟩ s id) :
    ∃ row, s.ShowsInterface version e ⟨id, row⟩ := by
  obtain ⟨row, hrenew, honly⟩ := only_of_settled hkeys h
  refine ⟨row, honly _ fun row => elementKey_eq_iff, ⟨?_, ?_, ?_⟩, ?_⟩
  · exact congrArg (·.name) hrenew.symm
  · exact congrArg (·.summary) hrenew.symm
  · exact congrArg (·.description) hrenew.symm
  · exact showsDeprecation_of_settled hkeys (h.deprecation rfl)

theorem showsFunction_of_settled {e : FunctionEntry}
    (h : Put.Settled ⟨.functions, e, version⟩ s id) :
    ∃ row, s.ShowsFunction version e ⟨id, row⟩ := by
  obtain ⟨row, hrenew, honly⟩ := only_of_settled hkeys h
  refine ⟨row, honly _ fun row => elementKey_eq_iff, ⟨?_, ?_, ?_⟩, ?_, ?_, ?_⟩
  · exact congrArg (·.name) hrenew.symm
  · exact congrArg (·.summary) hrenew.symm
  · exact congrArg (·.description) hrenew.symm
  · rw [← hrenew]
    exact e.docblock.shows_returnInfo
  · exact showsDeprecation_of_settled hkeys (h.deprecation rfl)
  · exact showsArguments_of_settled hkeys (h.arguments rfl)

/-- A settled method shows its entry below its class. -/
theorem showsClassMethod_of_settled {m : MethodEntry}
    (h : Put.Settled ⟨.classMethods, m, owner⟩ s id) :
    ∃ row, s.ShowsClassMethod owner m ⟨id, row⟩ := by
  obtain ⟨row, hrenew, honly⟩ := only_of_settled hkeys h
  refine ⟨row, honly _ fun row => memberKey_eq_iff, ⟨?_, ?_, ?_, ?_⟩, ?_, ?_, ?_, ?_, ?_⟩
  · exact congrArg (·.summary) hrenew.symm
  · exact congrArg (·.description) hrenew.symm
  · exact congrArg (·.isStatic) hrenew.symm
  · exact congrArg (·.visibility) hrenew.symm
  · exact congrArg ClassMethodRow.isFinal hrenew.symm
  · exact congrArg ClassMethodRow.isAbstract hrenew.symm
  · rw [← hrenew]
    exact m.docblock.shows_returnInfo
  · exact showsDeprecation_of_settled hkeys (h.deprecation rfl)
  · exact showsArguments_of_settled hkeys (h.arguments rfl)

theorem showsInterfaceMethod_of_settled {m : MethodEntry}
    (h : Put.Settled ⟨.interfaceMethods, m, owner⟩ s id) :
    ∃ row, s.ShowsInterfaceMethod owner m ⟨id, row⟩ := by
  obtain ⟨row, hrenew, honly⟩ := only_of_settled hkeys h
  refine ⟨row, honly _ fun row => memberKey_eq_iff, ⟨?_, ?_, ?_, ?_⟩, ?_, ?_, ?_⟩
  · exact congrArg (·.summary) hrenew.symm
  · exact congrArg (·.description) hrenew.symm
  · exact congrArg (·.isStatic) hrenew.symm
  · exact congrArg (·.visibility) hrenew.symm
  · rw [← hrenew]
    exact m.docblock.shows_returnInfo
  · exact showsDeprecation_of_settled hkeys (h.deprecation rfl)
  · exact showsArguments_of_settled hkeys (h.arguments rfl)

theorem showsProperty_of_settled {m : PropertyEntry}
    (h : Put.Settled ⟨.classProperties, m, owner⟩ s id) :
    ∃ row, s.ShowsProperty owner m ⟨id, row⟩ := by
  obtain ⟨row, hrenew, honly⟩ := only_of_settled hkeys h
  refine ⟨row, honly _ fun row => memberKey_eq_iff, ⟨?_, ?_, ?_, ?_⟩, ?_⟩
  · exact congrArg MemberRow.summary hrenew.symm
  · exact congrArg MemberRow.description hrenew.symm
  · exact congrArg MemberRow.isStatic hrenew.symm
  · exact congrArg MemberRow.visibility hrenew.symm
  · exact showsDeprecation_of_settled hkeys (h.deprecation rfl)

end

/-! ## Documents -/

/-- Behind an import the version shows the document. -/
theorem showsDocument_withDocument {version : Int} {d : Document}
    (hkeys : (s.withDocument version d).HasUniqueKeys) :
    (s.withDocument version d).ShowsDocument version d where
  classes c e he := by
    obtain ⟨row, hrow⟩ := showsClass_of_settled hkeys (settled_class he)
    -- Members hang on the id of the class, which all its entries share.
    have hmem := mem_of_lastWith? he
    rw [← key_of_lastWith? he]
    refine ⟨⟨_, row⟩, hrow, fun name m hm => ?_, fun name m hm => ?_⟩
    · obtain ⟨row, hrow⟩ := showsClassMethod_of_settled hkeys (settled_classMethod hmem name hm)
      exact ⟨_, hrow⟩
    · obtain ⟨row, hrow⟩ := showsProperty_of_settled hkeys (settled_classProperty hmem name hm)
      exact ⟨_, hrow⟩
  interfaces c e he := by
    obtain ⟨row, hrow⟩ := showsInterface_of_settled hkeys (settled_interface he)
    have hmem := mem_of_lastWith? he
    rw [← key_of_lastWith? he]
    refine ⟨⟨_, row⟩, hrow, fun name m hm => ?_⟩
    obtain ⟨row, hrow⟩ :=
      showsInterfaceMethod_of_settled hkeys (settled_interfaceMethod hmem name hm)
    exact ⟨_, hrow⟩
  functions c e he := by
    obtain ⟨row, hrow⟩ := showsFunction_of_settled hkeys (settled_function he)
    exact ⟨_, hrow⟩
  aliases c e he := by
    have hsettled : Put.Settled ⟨.aliases, e, version⟩ (s.withDocument version d) _ :=
      settled_alias he
    obtain ⟨row, hrenew, honly⟩ := only_of_settled hkeys hsettled
    rw [← key_of_lastWith? he]
    exact ⟨_, honly _ fun row => aliasKey_eq_iff, congrArg AliasRow.dropped hrenew.symm⟩

end Store

/-- An import into a version of a reachable store succeeds, and the version then shows the document;
it does not matter whether the import is atomic. -/
theorem Reachable.import_shows {s : Store} (h : Reachable s) {version : Int}
    (hversion : s.versions.has version = true) (d : Document) :
    ∃ s', (Change.importInto version d).apply s = (.ok d.counts, s') ∧
      (Change.importDocument version d).apply s = (.ok d.counts, s') ∧
        s'.ShowsDocument version d := by
  refine ⟨_, Change.importInto_apply hversion, Change.importDocument_apply hversion, ?_⟩
  exact Store.showsDocument_withDocument (h.hasUniqueKeys_withDocument hversion)

theorem Reachable.import_shows_animals :
    ∃ s', (Change.importInto 1 .animals).apply .oneVersion = (.ok Document.animals.counts, s') ∧
      (Change.importDocument 1 .animals).apply .oneVersion = (.ok Document.animals.counts, s') ∧
        s'.ShowsDocument 1 .animals :=
  reachable_oneVersion.import_shows (by decide +kernel) .animals

/-- A document with an interface that declares a property. -/
def Document.shapes : Document where
  files := Dictionary.ofList [("shapes.php",
    { interfaces := [
        { name := "Shape"
          ns := "Library"
          properties := [{ name := "area", docblock := { summary := "The area." } }] }] })]

/-- The properties of interfaces are read and not stored: no kind of element is there for them. -/
theorem interface_property_not_stored :
    Document.shapes.interfaces.map (fun e => e.properties.map (·.name)) = [["area"]] ∧
      ((Change.importDocument 1 .shapes).apply .oneVersion).1 = .ok Document.shapes.counts ∧
        ((Change.importDocument 1 .shapes).apply .oneVersion).2.classProperties.records = [] :=
  ⟨by decide +kernel, by rw [Change.importDocument_apply (by decide +kernel)], by decide +kernel⟩

end ApiCatalog
