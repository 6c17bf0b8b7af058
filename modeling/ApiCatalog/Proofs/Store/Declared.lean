import ApiCatalog.Proofs.Store.Imported

/-!
# What a document declares

A document may declare an element more than once; its last entry counts. Classes, interfaces and
functions are told apart by their namespace as it is stored and their short name, members by their
name among all that the entries of their class or interface declare. These lemmas lead from the last
entry in the document to what is settled behind an import.
-/

namespace ApiCatalog

/-! ## Keys of entries -/

/-- What tells elements of a version apart: the namespace as it is stored, where none is as good as
an empty one, and the short name. -/
def declaredKey (ns name : String) : String × String := ((storedNamespace ns).getD "", name)

@[inherit_doc declaredKey]
def ClassEntry.key (e : ClassEntry) : String × String := declaredKey e.ns e.name

@[inherit_doc declaredKey]
def InterfaceEntry.key (e : InterfaceEntry) : String × String := declaredKey e.ns e.name

@[inherit_doc declaredKey]
def FunctionEntry.key (e : FunctionEntry) : String × String := declaredKey e.ns e.name

/-- What tells the aliases of a version apart. -/
def AliasEntry.key (e : AliasEntry) : String × String := (e.oldName, e.newName)

namespace Document

variable (d : Document) (c : String × String)

/-- The methods that all entries of a class declare. -/
def classMethods : List MethodEntry := (d.classes.filter (·.key == c)).flatMap (·.methods)

/-- The properties that all entries of a class declare. -/
def classProperties : List PropertyEntry := (d.classes.filter (·.key == c)).flatMap (·.properties)

/-- The methods that all entries of an interface declare. -/
def interfaceMethods : List MethodEntry := (d.interfaces.filter (·.key == c)).flatMap (·.methods)

end Document

/-- A document with a class that extends one declared behind it and implements an interface. -/
def Document.animals : Document where
  files := Dictionary.ofList [("animals.php",
    { functions := [{ name := "feed", ns := "global", arguments := [{ name := "animal" }] }]
      classes := [
        { name := "Cat", ns := "Animals", parent := "\\Animals\\Animal", implements := ["Animals\\Walks"]
          properties := [{ name := "lives" }]
          methods := [{ name := "purr", arguments := [{ name := "loud", type := "bool" }] }] },
        { name := "Animal", ns := "Animals", isAbstract := true }]
      interfaces := [{ name := "Walks", ns := "Animals", methods := [{ name := "walk" }] }] })]
  aliases := [{ oldName := "Animals\\Kitten", newName := "Animals\\Cat", version := "2.0" }]

/-! ## Last entries among puts -/

section
variable {k l : ElementKind} {es : List k.Entry} {owner : Int} {key : NaturalKey}

/-- Of entries put under one owner, those in one place are those of one key. -/
theorem filter_puts : (es.map (Put.mk k · owner)).filter (Put.place · == (k, key)) =
    (es.filter (k.entryKey · owner == key)).map (Put.mk k · owner) := by
  rw [List.filter_map]
  refine congrArg _ (List.filter_congr fun e _ => ?_)
  rw [Bool.eq_iff_iff, beq_iff_eq, Function.comp_apply, beq_iff_eq]
  exact ⟨fun h => congrArg Prod.snd h, fun h => congrArg (Prod.mk k) h⟩

/-- Entries of another kind are put in other places. -/
theorem filter_puts_of_ne (h : k ≠ l) :
    (es.map (Put.mk k · owner)).filter (Put.place · == (l, key)) = [] := by
  refine List.filter_eq_nil_iff.2 fun p hp hplace => ?_
  obtain ⟨e, -, rfl⟩ := List.mem_map.1 hp
  rw [beq_iff_eq] at hplace
  exact h (congrArg Prod.fst hplace)

theorem lastWith?_puts : lastWith? Put.place (k, key) (es.map (Put.mk k · owner)) =
    (lastWith? (k.entryKey · owner) key es).map (Put.mk k · owner) := by
  unfold lastWith?
  rw [filter_puts, List.getLast?_map]

theorem lastWith?_puts_of_ne (h : k ≠ l) :
    lastWith? Put.place (l, key) (es.map (Put.mk k · owner)) = none := by
  unfold lastWith?
  rw [filter_puts_of_ne h]
  rfl

/-- With the owner given, a scope and a name make up the natural key. -/
theorem naturalKey_eq_iff {a b : String × String} :
    (⟨owner, a.1, a.2⟩ : NaturalKey) = ⟨owner, b.1, b.2⟩ ↔ a = b := by
  rw [NaturalKey.mk.injEq, Prod.ext_iff]
  simp

end

namespace Store

variable {s : Store} {version : Int} {d : Document} {c : String × String}

/-! ## Settled elements -/

theorem settled_class {e : ClassEntry} (h : lastWith? ClassEntry.key c d.classes = some e) :
    Put.Settled ⟨.classes, e, version⟩ (s.withDocument version d)
      ((s.withElements version d).classId version e) := by
  refine settled_element (c := (.classes, ⟨version, c.1, c.2⟩)) ?_
  have hkey : lastWith? (ElementKind.classes.entryKey · version) ⟨version, c.1, c.2⟩ d.classes =
      some e :=
    (lastWith?_congr fun _ _ => naturalKey_eq_iff).trans h
  unfold Document.elementPuts
  rw [lastWith?_append, lastWith?_puts_of_ne (k := .interfaces) (by decide), lastWith?_puts, hkey]
  rfl

theorem settled_interface {e : InterfaceEntry}
    (h : lastWith? InterfaceEntry.key c d.interfaces = some e) :
    Put.Settled ⟨.interfaces, e, version⟩ (s.withDocument version d)
      ((s.withElements version d).interfaceId version e) := by
  refine settled_element (c := (.interfaces, ⟨version, c.1, c.2⟩)) ?_
  have hkey : lastWith? (ElementKind.interfaces.entryKey · version) ⟨version, c.1, c.2⟩
      d.interfaces = some e :=
    (lastWith?_congr fun _ _ => naturalKey_eq_iff).trans h
  unfold Document.elementPuts
  rw [lastWith?_append, lastWith?_puts, hkey]
  rfl

/-! ## Settled functions and aliases -/

section
variable {k : ElementKind} {key : NaturalKey}

/-- What an import puts in its last pass, by the kind of the owners. -/
def putsUnder (s : Store) (version : Int) (d : Document) : OwnerKind → List Put
  | .versions => d.otherPuts version
  | .classes => s.classPuts version d
  | .interfaces => s.interfacePuts version d

theorem ownerKind_of_mem_putsUnder {o : OwnerKind} {p : Put} (hp : p ∈ s.putsUnder version d o) :
    p.kind.ownerKind = o := by
  cases o with
  | versions => exact (Document.owner_of_mem_otherPuts hp).1
  | classes =>
    obtain ⟨e, -, hp⟩ := List.mem_flatMap.1 hp
    exact (ClassEntry.owner_of_mem_puts hp).1
  | interfaces =>
    obtain ⟨e, -, hp⟩ := List.mem_flatMap.1 hp
    exact (InterfaceEntry.owner_of_mem_puts hp).1

/-- What is put under other kinds of owners is put in other places. -/
theorem lastWith?_memberPuts :
    lastWith? Put.place (k, key) (s.memberPuts version d) =
      lastWith? Put.place (k, key) (s.putsUnder version d k.ownerKind) := by
  have hnone : ∀ o, k.ownerKind ≠ o →
      lastWith? Put.place (k, key) (s.putsUnder version d o) = none := by
    intro o ho
    refine lastWith?_eq_none_iff.2 fun p hp hplace => ho ?_
    rw [← ownerKind_of_mem_putsUnder hp, ← show p.kind = k from congrArg Prod.fst hplace]
  have hputs : s.memberPuts version d = s.putsUnder version d .classes ++
      s.putsUnder version d .interfaces ++ s.putsUnder version d .versions := rfl
  rw [hputs, lastWith?_append, lastWith?_append]
  generalize k.ownerKind = o at hnone ⊢
  cases o with
  | versions => simp [hnone .classes nofun, hnone .interfaces nofun]
  | classes => simp [hnone .interfaces nofun, hnone .versions nofun]
  | interfaces => simp [hnone .classes nofun, hnone .versions nofun]

end

theorem settled_function {e : FunctionEntry}
    (h : lastWith? FunctionEntry.key c d.functions = some e) :
    Put.Settled ⟨.functions, e, version⟩ (s.withDocument version d)
      ((s.withDocument version d).idOf ⟨.functions, e, version⟩) := by
  refine settled_member (c := (.functions, ⟨version, c.1, c.2⟩)) ?_
  have hkey : lastWith? (ElementKind.functions.entryKey · version) ⟨version, c.1, c.2⟩ d.functions =
      some e :=
    (lastWith?_congr fun _ _ => naturalKey_eq_iff).trans h
  rw [lastWith?_memberPuts]
  show lastWith? _ _ (d.otherPuts version) = _
  unfold Document.otherPuts
  rw [lastWith?_append, lastWith?_puts_of_ne (k := .aliases) (by decide), lastWith?_puts, hkey]
  rfl

theorem settled_alias {e : AliasEntry} (h : lastWith? AliasEntry.key c d.aliases = some e) :
    Put.Settled ⟨.aliases, e, version⟩ (s.withDocument version d)
      ((s.withDocument version d).idOf ⟨.aliases, e, version⟩) := by
  refine settled_member (c := (.aliases, ⟨version, c.1, c.2⟩)) ?_
  have hkey : lastWith? (ElementKind.aliases.entryKey · version) ⟨version, c.1, c.2⟩ d.aliases =
      some e :=
    (lastWith?_congr fun _ _ => naturalKey_eq_iff).trans h
  rw [lastWith?_memberPuts]
  show lastWith? _ _ (d.otherPuts version) = _
  unfold Document.otherPuts
  rw [lastWith?_append, lastWith?_puts, hkey]
  rfl

/-! ## Settled members -/

/-- Where entries of one kind are stored under one owner, they have one id if they have one key. -/
theorem idOf_eq_iff {k : ElementKind} {e e' : k.Entry} {owner : Int}
    (h : Put.Stored ⟨k, e, owner⟩ s (s.idOf ⟨k, e, owner⟩))
    (h' : Put.Stored ⟨k, e', owner⟩ s (s.idOf ⟨k, e', owner⟩)) :
    s.idOf ⟨k, e, owner⟩ = s.idOf ⟨k, e', owner⟩ ↔ k.entryKey e owner = k.entryKey e' owner := by
  constructor
  · intro hid
    obtain ⟨row, hrow⟩ := h
    obtain ⟨row', hrow'⟩ := h'
    have heq := Table.eq_of_id_eq (Table.mem_of_at? hrow) (Table.mem_of_at? hrow') hid
    have hkey' : k.key row' = k.entryKey e' owner := Table.key_of_at? hrow'
    rw [← show row = row' from congrArg Record.row heq] at hkey'
    exact (Table.key_of_at? hrow).symm.trans hkey'
  · intro hkey
    exact congrArg ((s.table k).idAt k.key) hkey

theorem classId_eq_iff {e e' : ClassEntry} (he : e ∈ d.classes) (he' : e' ∈ d.classes) :
    (s.withElements version d).classId version e = (s.withElements version d).classId version e' ↔
      e.key = e'.key := by
  have h := stored_putAll (s := s) (Document.class_mem_elementPuts version he)
  have h' := stored_putAll (s := s) (Document.class_mem_elementPuts version he')
  exact (idOf_eq_iff h h').trans (naturalKey_eq_iff (a := e.key) (b := e'.key))

theorem interfaceId_eq_iff {e e' : InterfaceEntry} (he : e ∈ d.interfaces)
    (he' : e' ∈ d.interfaces) :
    (s.withElements version d).interfaceId version e =
      (s.withElements version d).interfaceId version e' ↔ e.key = e'.key := by
  have h := stored_putAll (s := s) (Document.interface_mem_elementPuts version he)
  have h' := stored_putAll (s := s) (Document.interface_mem_elementPuts version he')
  exact (idOf_eq_iff h h').trans (naturalKey_eq_iff (a := e.key) (b := e'.key))

/-- Members put under one owner are told apart by their names. -/
theorem filter_members {k : ElementKind} {es : List k.Entry} {owner id : Int} {name : String}
    {p : Bool} (hp : owner = id ↔ p = true)
    (hkey : ∀ e ∈ es, k.entryKey e owner = ⟨owner, "", k.entryName e⟩) :
    (es.map (Put.mk k · owner)).filter (Put.place · == (k, ⟨id, "", name⟩)) =
      if p = true then (es.filter (k.entryName · == name)).map (Put.mk k · id) else [] := by
  rw [filter_puts]
  -- Members under another owner are out of place, those under this one go by their names.
  by_cases hid : owner = id
  · rw [if_pos (hp.1 hid), ← hid]
    refine congrArg _ (List.filter_congr fun e he => ?_)
    rw [Bool.eq_iff_iff, beq_iff_eq, beq_iff_eq, hkey e he, NaturalKey.mk.injEq]
    exact ⟨fun h => h.2.2, fun hname => ⟨rfl, rfl, hname⟩⟩
  · rw [if_neg fun h => hid (hp.2 h)]
    have hnone : es.filter (k.entryKey · owner == ⟨id, "", name⟩) = [] := by
      refine List.filter_eq_nil_iff.2 fun e he h => hid ?_
      rw [beq_iff_eq, hkey e he] at h
      exact congrArg NaturalKey.owner h
    rw [hnone]
    rfl

/-- Members are put with the entries of their owners. Where an entry puts members of the kind under
the id of its own, and entries have one id if they are `same`, the last member of a name that any
of these declares is settled. -/
theorem settled_of_members {α : Type} {k : ElementKind} (entries : List α)
    (members : α → List k.Entry) (ids : α → Int) (same : α → Bool) {puts : α → List Put} {id : Int}
    {name : String} {m : k.Entry}
    (hputs : (s.withElements version d).putsUnder version d k.ownerKind = entries.flatMap puts)
    (hkind : ∀ e ∈ entries, (puts e).filter (Put.place · == (k, ⟨id, "", name⟩)) =
      ((members e).map (Put.mk k · (ids e))).filter (Put.place · == (k, ⟨id, "", name⟩)))
    (hids : ∀ e ∈ entries, ids e = id ↔ same e = true)
    (hkey : ∀ m owner, k.entryKey m owner = ⟨owner, "", k.entryName m⟩)
    (h : lastWith? k.entryName name ((entries.filter same).flatMap members) = some m) :
    Put.Settled ⟨k, m, id⟩ (s.withDocument version d)
      ((s.withDocument version d).idOf ⟨k, m, id⟩) := by
  have hparts : ∀ e ∈ entries, (puts e).filter (Put.place · == (k, ⟨id, "", name⟩)) =
      if same e = true then
        ((members e).filter (k.entryName · == name)).map (Put.mk k · id) else [] := by
    intro e he
    rw [hkind e he]
    exact filter_members (hids e he) fun m _ => hkey m _
  -- The last put in this place is thus that of the last member of the name.
  refine settled_member (c := (k, ⟨id, "", name⟩)) ?_
  rw [lastWith?_memberPuts, hputs, lastWith?_flatMap hparts, h]
  rfl

theorem settled_classMethod {e : ClassEntry} (he : e ∈ d.classes) (name : String) {m : MethodEntry}
    (h : lastWith? MethodEntry.name name (d.classMethods e.key) = some m) :
    Put.Settled ⟨.classMethods, m, (s.withElements version d).classId version e⟩
      (s.withDocument version d) ((s.withDocument version d).idOf
        ⟨.classMethods, m, (s.withElements version d).classId version e⟩) := by
  refine settled_of_members (k := .classMethods) d.classes ClassEntry.methods
    ((s.withElements version d).classId version) (·.key == e.key) rfl (fun e' _ => ?_)
    (fun e' he' => (classId_eq_iff he' he).trans beq_iff_eq.symm) (fun _ _ => rfl) h
  unfold ClassEntry.puts
  rw [List.filter_append, filter_puts_of_ne (k := .classProperties) (by decide), List.append_nil]

theorem settled_classProperty {e : ClassEntry} (he : e ∈ d.classes) (name : String)
    {m : PropertyEntry} (h : lastWith? PropertyEntry.name name (d.classProperties e.key) = some m) :
    Put.Settled ⟨.classProperties, m, (s.withElements version d).classId version e⟩
      (s.withDocument version d) ((s.withDocument version d).idOf
        ⟨.classProperties, m, (s.withElements version d).classId version e⟩) := by
  refine settled_of_members (k := .classProperties) d.classes ClassEntry.properties
    ((s.withElements version d).classId version) (·.key == e.key) rfl (fun e' _ => ?_)
    (fun e' he' => (classId_eq_iff he' he).trans beq_iff_eq.symm) (fun _ _ => rfl) h
  unfold ClassEntry.puts
  rw [List.filter_append, filter_puts_of_ne (k := .classMethods) (by decide), List.nil_append]

theorem settled_interfaceMethod {e : InterfaceEntry} (he : e ∈ d.interfaces) (name : String)
    {m : MethodEntry} (h : lastWith? MethodEntry.name name (d.interfaceMethods e.key) = some m) :
    Put.Settled ⟨.interfaceMethods, m, (s.withElements version d).interfaceId version e⟩
      (s.withDocument version d) ((s.withDocument version d).idOf
        ⟨.interfaceMethods, m, (s.withElements version d).interfaceId version e⟩) :=
  settled_of_members (k := .interfaceMethods) d.interfaces InterfaceEntry.methods
    ((s.withElements version d).interfaceId version) (·.key == e.key) rfl (fun _ _ => rfl)
    (fun _ he' => (interfaceId_eq_iff he' he).trans beq_iff_eq.symm) (fun _ _ => rfl) h

/-! ## Linked elements -/

theorem classLinked_of_last (s : Store) (version : Int) {e : ClassEntry}
    (h : lastWith? ClassEntry.key c d.classes = some e) :
    (s.withDocument version d).ClassLinked ((s.withElements version d).classId version e)
      version e := by
  refine classLinked_withDocument ?_
  have he := mem_of_lastWith? h
  rw [← h, ← key_of_lastWith? h]
  exact lastWith?_congr fun e' he' => classId_eq_iff he' he

theorem interfaceLinked_of_last (s : Store) (version : Int) {e : InterfaceEntry}
    (h : lastWith? InterfaceEntry.key c d.interfaces = some e) :
    (s.withDocument version d).InterfaceLinked ((s.withElements version d).interfaceId version e)
      version e := by
  refine interfaceLinked_withDocument ?_
  have he := mem_of_lastWith? h
  rw [← h, ← key_of_lastWith? h]
  exact lastWith?_congr fun e' he' => interfaceId_eq_iff he' he

end Store
end ApiCatalog
