import ApiCatalog.Proofs.Store.Link
import ApiCatalog.Proofs.Store.Reconcile
import ApiCatalog.Store.Import

/-!
# The store behind an import

An import puts the classes and interfaces of a document, links them, and puts their members and
then the functions and aliases. Where the version is there nothing of this can fail, and the store
behind it is `Store.withDocument` (`importInto_apply`). Where it is not, the first entry fails and
nothing was written before (`importInto_apply_of_missing`).

The ids under which members are put and links are made are those that the classes and interfaces
have when all of them are put; nothing that follows changes them.
-/

namespace ApiCatalog

/-! ## What is put -/

/-- The members of a class, put under its id. -/
def ClassEntry.puts (e : ClassEntry) (id : Int) : List Put :=
  e.methods.map (Put.mk .classMethods · id) ++ e.properties.map (Put.mk .classProperties · id)

/-- The methods of an interface, put under its id. -/
def InterfaceEntry.puts (e : InterfaceEntry) (id : Int) : List Put :=
  e.methods.map (Put.mk .interfaceMethods · id)

/-- What is put for a class belongs to it. -/
theorem ClassEntry.owner_of_mem_puts {e : ClassEntry} {id : Int} {p : Put} (h : p ∈ e.puts id) :
    p.kind.ownerKind = .classes ∧ p.owner = id := by
  unfold puts at h
  rcases List.mem_append.1 h with h | h
  · obtain ⟨m, -, rfl⟩ := List.mem_map.1 h
    exact ⟨rfl, rfl⟩
  · obtain ⟨m, -, rfl⟩ := List.mem_map.1 h
    exact ⟨rfl, rfl⟩

/-- What is put for an interface belongs to it. -/
theorem InterfaceEntry.owner_of_mem_puts {e : InterfaceEntry} {id : Int} {p : Put}
    (h : p ∈ e.puts id) : p.kind.ownerKind = .interfaces ∧ p.owner = id := by
  obtain ⟨m, -, rfl⟩ := List.mem_map.1 h
  exact ⟨rfl, rfl⟩

namespace Document

/-- The classes and interfaces of a document, put in a version. -/
def elementPuts (d : Document) (version : Int) : List Put :=
  d.classes.map (Put.mk .classes · version) ++ d.interfaces.map (Put.mk .interfaces · version)

/-- The functions and aliases of a document, put in a version. -/
def otherPuts (d : Document) (version : Int) : List Put :=
  d.functions.map (Put.mk .functions · version) ++ d.aliases.map (Put.mk .aliases · version)

variable {d : Document} {version : Int} {p : Put}

/-- Every class of the document is put. -/
theorem class_mem_elementPuts (version : Int) {e : ClassEntry} (h : e ∈ d.classes) :
    ⟨.classes, e, version⟩ ∈ d.elementPuts version :=
  List.mem_append_left _ (List.mem_map.2 ⟨e, h, rfl⟩)

theorem interface_mem_elementPuts (version : Int) {e : InterfaceEntry} (h : e ∈ d.interfaces) :
    ⟨.interfaces, e, version⟩ ∈ d.elementPuts version :=
  List.mem_append_right _ (List.mem_map.2 ⟨e, h, rfl⟩)

/-- Both belong to the version. -/
theorem owner_of_mem_elementPuts (h : p ∈ d.elementPuts version) :
    p.kind.ownerKind = .versions ∧ p.owner = version := by
  unfold elementPuts at h
  rcases List.mem_append.1 h with h | h
  · obtain ⟨e, -, rfl⟩ := List.mem_map.1 h
    exact ⟨rfl, rfl⟩
  · obtain ⟨e, -, rfl⟩ := List.mem_map.1 h
    exact ⟨rfl, rfl⟩

theorem owner_of_mem_otherPuts (h : p ∈ d.otherPuts version) :
    p.kind.ownerKind = .versions ∧ p.owner = version := by
  unfold otherPuts at h
  rcases List.mem_append.1 h with h | h
  · obtain ⟨e, -, rfl⟩ := List.mem_map.1 h
    exact ⟨rfl, rfl⟩
  · obtain ⟨e, -, rfl⟩ := List.mem_map.1 h
    exact ⟨rfl, rfl⟩

end Document

namespace Store

/-- The id of a class of a version, by the key of its entry. -/
def classId (s : Store) (version : Int) (e : ClassEntry) : Int := s.idOf ⟨.classes, e, version⟩

/-- The id of an interface of a version, by the key of its entry. -/
def interfaceId (s : Store) (version : Int) (e : InterfaceEntry) : Int :=
  s.idOf ⟨.interfaces, e, version⟩

/-- The members of the classes of a document, put under the ids that these have. -/
def classPuts (s : Store) (version : Int) (d : Document) : List Put :=
  d.classes.flatMap fun e => e.puts (s.classId version e)

/-- The members of the interfaces of a document, put under the ids that these have. -/
def interfacePuts (s : Store) (version : Int) (d : Document) : List Put :=
  d.interfaces.flatMap fun e => e.puts (s.interfaceId version e)

/-- All that a document has beside classes and interfaces, put where it belongs. -/
def memberPuts (s : Store) (version : Int) (d : Document) : List Put :=
  s.classPuts version d ++ s.interfacePuts version d ++ d.otherPuts version

/-- The store with classes linked, one after the other, under the ids given. -/
def linkClasses (s : Store) (version : Int) (id : ClassEntry → Int)
    (es : List ClassEntry) : Store :=
  es.foldl (fun s e => s.linkClass (id e) version e) s

/-- The store with interfaces linked, one after the other, under the ids given. -/
def linkInterfaces (s : Store) (version : Int) (id : InterfaceEntry → Int)
    (es : List InterfaceEntry) : Store :=
  es.foldl (fun s e => s.linkInterface (id e) version e) s

/-- The store with the classes and interfaces of a document linked, which it has. -/
def linkAll (s : Store) (version : Int) (d : Document) : Store :=
  (s.linkClasses version (s.classId version) d.classes).linkInterfaces version
    (s.interfaceId version) d.interfaces

/-- The store with the classes and interfaces of a document put and not linked yet. -/
def withElements (s : Store) (version : Int) (d : Document) : Store :=
  s.putAll (d.elementPuts version)

/-- The store with a document imported. -/
def withDocument (s : Store) (version : Int) (d : Document) : Store :=
  let s := s.withElements version d
  (s.linkAll version d).putAll (s.memberPuts version d)

end Store

/-! ## Linking keeps what is stored -/

namespace Put.Stored

variable {p : Put} {s : Store} {id : Int}

/-- An entry keeps its id, whatever class is linked. -/
theorem linkClass (h : p.Stored s id) (id' version : Int) (e : ClassEntry) :
    p.Stored (s.linkClass id' version e) id := by
  obtain ⟨row, hrow⟩ := h
  obtain ⟨k, entry, owner⟩ := p
  cases k with
  | classes =>
    refine ⟨if id = id' then row.extending (s.parentOf? id' version e) else row, ?_⟩
    refine (Store.classAt?_linkClass ElementKind.classes.key e fun _ _ => rfl).trans ?_
    exact congrArg (Option.map _) hrow
  | interfaces | classMethods | interfaceMethods | classProperties | functions | aliases =>
    exact ⟨row, hrow⟩

/-- What is stored stays stored when an interface is linked. -/
theorem linkInterface (h : p.Stored s id) (id' version : Int) (e : InterfaceEntry) :
    p.Stored (s.linkInterface id' version e) id := by
  obtain ⟨row, hrow⟩ := h
  obtain ⟨k, entry, owner⟩ := p
  exact ⟨row, by cases k <;> exact hrow⟩

end Put.Stored

/-- The version is there, and the classes and interfaces of the document are, under the ids
given. -/
structure Store.Holds (s : Store) (version : Int) (d : Document) (classId : ClassEntry → Int)
    (interfaceId : InterfaceEntry → Int) : Prop where
  hasVersion : s.versions.has version = true
  classes : ∀ e ∈ d.classes, Put.Stored ⟨.classes, e, version⟩ s (classId e)
  interfaces : ∀ e ∈ d.interfaces, Put.Stored ⟨.interfaces, e, version⟩ s (interfaceId e)

namespace Store.Holds

variable {s : Store} {version : Int} {d : Document} {classId : ClassEntry → Int}
  {interfaceId : InterfaceEntry → Int}

/-- The elements of the document stay stored when more is put. -/
theorem putAll (h : s.Holds version d classId interfaceId) (ps : List Put) :
    (s.putAll ps).Holds version d classId interfaceId where
  hasVersion := hasOwner_putAll (k := .versions) ps h.hasVersion
  classes e he := (h.classes e he).putAll ps
  interfaces e he := (h.interfaces e he).putAll ps

theorem linkClass (h : s.Holds version d classId interfaceId) (id version' : Int) (e : ClassEntry) :
    (s.linkClass id version' e).Holds version d classId interfaceId where
  hasVersion := h.hasVersion
  classes e' he' := (h.classes e' he').linkClass id version' e
  interfaces e' he' := (h.interfaces e' he').linkClass id version' e

theorem linkInterface (h : s.Holds version d classId interfaceId) (id version' : Int)
    (e : InterfaceEntry) : (s.linkInterface id version' e).Holds version d classId interfaceId where
  hasVersion := h.hasVersion
  classes e' he' := (h.classes e' he').linkInterface id version' e
  interfaces e' he' := (h.interfaces e' he').linkInterface id version' e

/-- Linking many classes is no different. -/
theorem linkClasses (h : s.Holds version d classId interfaceId) (version' : Int)
    (id : ClassEntry → Int) (es : List ClassEntry) :
    (s.linkClasses version' id es).Holds version d classId interfaceId := by
  induction es generalizing s with
  | nil => exact h
  | cons e es ih => exact ih (h.linkClass (id e) version' e)

theorem linkInterfaces (h : s.Holds version d classId interfaceId) (version' : Int)
    (id : InterfaceEntry → Int) (es : List InterfaceEntry) :
    (s.linkInterfaces version' id es).Holds version d classId interfaceId := by
  induction es generalizing s with
  | nil => exact h
  | cons e es ih => exact ih (h.linkInterface (id e) version' e)

/-- The linked classes and interfaces are where they were. -/
theorem linkAll (h : s.Holds version d (s.classId version) (s.interfaceId version)) :
    (s.linkAll version d).Holds version d (s.classId version) (s.interfaceId version) :=
  (h.linkClasses version _ d.classes).linkInterfaces version _ d.interfaces

/-- A class of the document is there under its id. -/
theorem hasClass (h : s.Holds version d classId interfaceId) {e : ClassEntry} (he : e ∈ d.classes) :
    s.classes.has (classId e) = true :=
  (h.classes e he).hasOwner (.inl ⟨rfl, rfl⟩)

theorem hasInterface (h : s.Holds version d classId interfaceId) {e : InterfaceEntry}
    (he : e ∈ d.interfaces) : s.interfaces.has (interfaceId e) = true :=
  (h.interfaces e he).hasOwner (.inr ⟨rfl, rfl⟩)

end Store.Holds

/-- Putting all of some entries leaves each of them there. -/
theorem Store.stored_putAll {s : Store} {ps : List Put} {p : Put} (hp : p ∈ ps) :
    p.Stored (s.putAll ps) ((s.putAll ps).idOf p) := by
  obtain ⟨front, rest, rfl⟩ := List.append_of_mem hp
  rw [putAll_append]
  have h : p.Stored (((s.putAll front).put p).putAll rest) ((s.putAll front).idOf p) :=
    Put.Stored.put_self.putAll rest
  exact h.idOf_eq ▸ h

/-- Behind the first pass the document's classes and interfaces are there. -/
theorem Store.holds_withElements {s : Store} {version : Int} {d : Document}
    (h : s.versions.has version = true) :
    (s.withElements version d).Holds version d ((s.withElements version d).classId version)
      ((s.withElements version d).interfaceId version) where
  hasVersion := hasOwner_putAll (k := .versions) _ h
  classes _ he := stored_putAll (Document.class_mem_elementPuts version he)
  interfaces _ he := stored_putAll (Document.interface_mem_elementPuts version he)

/-- They are so behind the import. -/
theorem Store.holds_withDocument {s : Store} {version : Int} {d : Document}
    (h : s.versions.has version = true) :
    (s.withDocument version d).Holds version d ((s.withElements version d).classId version)
      ((s.withElements version d).interfaceId version) :=
  (Store.holds_withElements h).linkAll.putAll _

/-- The last pass of an import, kind by kind. -/
theorem Store.withDocument_eq (s : Store) (version : Int) (d : Document) :
    s.withDocument version d =
      (((((s.withElements version d).linkAll version d).putAll
        ((s.withElements version d).classPuts version d)).putAll
          ((s.withElements version d).interfacePuts version d)).putAll
            (d.functions.map (Put.mk .functions · version))).putAll
              (d.aliases.map (Put.mk .aliases · version)) := by
  unfold withDocument memberPuts Document.otherPuts
  rw [putAll_append, putAll_append, putAll_append]

/-! ## What an import comes to -/

/-- What is gathered is counted part by part. -/
theorem length_flatMap_eq_total {α β : Type} (f : α → List β) (items : List α) :
    (items.flatMap f).length = total (items.map fun a => (f a).length) := by
  induction items with
  | nil => rfl
  | cons a items ih => rw [List.flatMap_cons, List.length_append, ih, List.map_cons, total]

namespace Change

variable {s : Store} {version : Int} {d : Document} {classId : ClassEntry → Int}
  {interfaceId : InterfaceEntry → Int}

/-- Classes that are stored are linked one by one. -/
theorem linkClasses_apply {cs : List (Record ClassRow × ClassEntry)}
    (hs : s.Holds version d classId interfaceId)
    (hcs : ∀ c ∈ cs, c.2 ∈ d.classes ∧ c.1.id = classId c.2 ∧ c.1.row.version = version) :
    (cs.forM fun (r, e) => linkClass r.id r.row.version e).apply s =
      (.ok (), s.linkClasses version classId (cs.map Prod.snd)) := by
  unfold Store.linkClasses
  rw [List.foldl_map]
  -- Links change no keys and ids, so the invariant of the pass is that the document is held.
  refine (apply_forM (fun s => s.Holds version d classId interfaceId) (fun c hc s hs => ?_) hs).1
  obtain ⟨hmem, hid, hversion⟩ := hcs c hc
  refine ⟨?_, hs.linkClass _ _ _⟩
  dsimp only
  rw [hid, hversion]
  exact linkClass_apply c.2 (hs.hasClass hmem)

theorem linkInterfaces_apply {cs : List (Record ElementRow × InterfaceEntry)}
    (hs : s.Holds version d classId interfaceId)
    (hcs : ∀ c ∈ cs, c.2 ∈ d.interfaces ∧ c.1.id = interfaceId c.2 ∧ c.1.row.version = version) :
    (cs.forM fun (r, e) => linkInterface r.id r.row.version e).apply s =
      (.ok (), s.linkInterfaces version interfaceId (cs.map Prod.snd)) := by
  unfold Store.linkInterfaces
  rw [List.foldl_map]
  refine (apply_forM (fun s => s.Holds version d classId interfaceId) (fun c hc s hs => ?_) hs).1
  obtain ⟨hmem, hid, hversion⟩ := hcs c hc
  refine ⟨?_, hs.linkInterface _ _ _⟩
  dsimp only
  rw [hid, hversion]
  exact linkInterface_apply c.2 (hs.hasInterface hmem)

/-- Putting the entries of one kind under one owner counts them. -/
theorem reconcileAll_length_apply {k : ElementKind} {owner : Int} (es : List k.Entry)
    (h : s.hasOwner k.ownerKind owner = true) :
    ∃ rs, (reconcileAll k es owner).apply s = (.ok rs, s.putAll (es.map (Put.mk k · owner))) ∧
      rs.length = es.length := by
  obtain ⟨rs, hrs, hes, -⟩ := reconcileAll_apply es h
  exact ⟨rs, hrs, by rw [← hes, List.length_map]⟩

/-- The members of classes are stored one by one, and counted. -/
theorem classMembers_apply {cs : List (Record ClassRow × ClassEntry)}
    (hs : s.Holds version d classId interfaceId)
    (hcs : ∀ c ∈ cs, c.2 ∈ d.classes ∧ c.1.id = classId c.2 ∧ c.1.row.version = version) :
    apply (cs.mapM fun (r, e) => do
        let methods ← reconcileAll .classMethods e.methods r.id
        let properties ← reconcileAll .classProperties e.properties r.id
        return (methods.length, properties.length)) s =
      (.ok (cs.map fun c => (c.2.methods.length, c.2.properties.length)),
        s.putAll ((cs.map Prod.snd).flatMap fun e => e.puts (classId e))) := by
  unfold Store.putAll
  rw [List.foldl_flatMap, List.foldl_map]
  -- That the store holds the document is the invariant of the pass.
  refine (apply_mapM (fun s => s.Holds version d classId interfaceId) (fun c hc s hs => ?_) hs).1
  obtain ⟨hmem, hid, -⟩ := hcs c hc
  refine ⟨?_, hs.putAll _⟩
  obtain ⟨ms, hms, hmlength⟩ := reconcileAll_length_apply (k := .classMethods) c.2.methods
    (hs.hasClass hmem)
  obtain ⟨ps, hps, hplength⟩ := reconcileAll_length_apply (k := .classProperties) c.2.properties
    ((hs.putAll _).hasClass hmem)
  dsimp only
  rw [hid, apply_bind_ok hms, apply_bind_ok hps, hmlength, hplength, apply_pure,
    ← Store.putAll_append]
  rfl

theorem interfaceMembers_apply {cs : List (Record ElementRow × InterfaceEntry)}
    (hs : s.Holds version d classId interfaceId)
    (hcs : ∀ c ∈ cs, c.2 ∈ d.interfaces ∧ c.1.id = interfaceId c.2 ∧ c.1.row.version = version) :
    apply (cs.mapM fun (r, e) => do
        return (← reconcileAll .interfaceMethods e.methods r.id).length) s =
      (.ok (cs.map fun c => c.2.methods.length),
        s.putAll ((cs.map Prod.snd).flatMap fun e => e.puts (interfaceId e))) := by
  unfold Store.putAll
  rw [List.foldl_flatMap, List.foldl_map]
  refine (apply_mapM (fun s => s.Holds version d classId interfaceId) (fun c hc s hs => ?_) hs).1
  obtain ⟨hmem, hid, -⟩ := hcs c hc
  refine ⟨?_, hs.putAll _⟩
  obtain ⟨ms, hms, hlength⟩ := reconcileAll_length_apply (k := .interfaceMethods) c.2.methods
    (hs.hasInterface hmem)
  dsimp only
  rw [hid, apply_bind_ok hms, hlength, apply_pure]
  rfl

/-- The first pass leads to records under the ids that the classes and interfaces then have. -/
theorem elements_apply (h : s.versions.has version = true) :
    ∃ cs is s', (reconcileAll .classes d.classes version).apply s = (.ok cs, s') ∧
      (reconcileAll .interfaces d.interfaces version).apply s' =
        (.ok is, s.withElements version d) ∧
      cs.map Prod.snd = d.classes ∧ is.map Prod.snd = d.interfaces ∧
      (∀ c ∈ cs, c.2 ∈ d.classes ∧ c.1.id = (s.withElements version d).classId version c.2 ∧
        c.1.row.version = version) ∧
      ∀ c ∈ is, c.2 ∈ d.interfaces ∧ c.1.id = (s.withElements version d).interfaceId version c.2 ∧
        c.1.row.version = version := by
  obtain ⟨cs, hcs, hclasses, hcstored⟩ := reconcileAll_apply (k := .classes) d.classes h
  have h' : (s.putAll (d.classes.map (Put.mk .classes · version))).versions.has version = true :=
    Store.hasOwner_putAll (k := .versions) _ h
  obtain ⟨is, his, hinterfaces, histored⟩ := reconcileAll_apply (k := .interfaces) d.interfaces h'
  rw [← Store.putAll_append] at his histored
  refine ⟨cs, is, _, hcs, his, hclasses, hinterfaces, fun c hc => ?_, fun c hc => ?_⟩
  · obtain ⟨hstored, hkey⟩ := hcstored c hc
    -- The interfaces are put behind the classes, which keep their ids.
    have hend := hstored.putAll (d.interfaces.map (Put.mk .interfaces · version))
    rw [← Store.putAll_append] at hend
    exact ⟨hclasses ▸ List.mem_map_of_mem hc, hend.idOf_eq.symm, congrArg NaturalKey.owner hkey⟩
  · obtain ⟨hstored, hkey⟩ := histored c hc
    exact ⟨hinterfaces ▸ List.mem_map_of_mem hc, hstored.idOf_eq.symm,
      congrArg NaturalKey.owner hkey⟩

/-- An import into a version that is there stores the document and counts its entries. -/
theorem importInto_apply (h : s.versions.has version = true) :
    (importInto version d).apply s = (.ok d.counts, s.withDocument version d) := by
  obtain ⟨cs, is, s', hcs, his, hclasses, hinterfaces, hcids, hiids⟩ := elements_apply (d := d) h
  have hholds := Store.holds_withElements (d := d) h
  let s₁ := s.withElements version d
  -- The ids of the first pass are those of `s₁`, and the store holds the document under them from
  -- then on.
  have hholds' := hholds.linkClasses version (s₁.classId version) d.classes
  have hlinked :
      (s₁.linkAll version d).Holds version d (s₁.classId version) (s₁.interfaceId version) :=
    hholds.linkAll
  have hputs := hlinked.putAll (s₁.classPuts version d)
  have hputs' := hputs.putAll (s₁.interfacePuts version d)
  have hlinks := linkClasses_apply hholds hcids
  have hlinks' := linkInterfaces_apply hholds' hiids
  have hmembers := classMembers_apply hlinked hcids
  have hmembers' := interfaceMembers_apply hputs hiids
  rw [hclasses] at hlinks hmembers
  rw [hinterfaces] at hlinks' hmembers'
  obtain ⟨fs, hfs, hflength⟩ := reconcileAll_length_apply (k := .functions) d.functions
    hputs'.hasVersion
  obtain ⟨as, has, halength⟩ := reconcileAll_length_apply (k := .aliases) d.aliases
    (hputs'.putAll _).hasVersion
  -- Pass by pass: elements, links, members, and what else the version has.
  refine (apply_bind_ok hcs _).trans ?_
  refine (apply_bind_ok his _).trans ?_
  refine (apply_bind_ok hlinks _).trans ?_
  refine (apply_bind_ok hlinks' _).trans ?_
  refine (apply_bind_ok hmembers _).trans ?_
  refine (apply_bind_ok hmembers' _).trans ?_
  refine (apply_bind_ok hfs _).trans ?_
  refine (apply_bind_ok has _).trans ?_
  rw [Store.withDocument_eq, Document.counts, length_flatMap_eq_total, length_flatMap_eq_total,
    length_flatMap_eq_total, ← hclasses, ← hinterfaces]
  simp [s₁, hflength, halength, Function.comp_def]

/-- As nothing fails, it makes no difference that an import is done whole or not at all. -/
theorem importDocument_apply (h : s.versions.has version = true) :
    (importDocument version d).apply s = (.ok d.counts, s.withDocument version d) := by
  unfold importDocument
  rw [apply_atomic, importInto_apply h]

/-- An import into a version that is not there fails at the first entry that belongs to a version,
if there is one, and stores nothing. -/
theorem importInto_apply_of_missing (h : s.versions.has version = false) :
    (importInto version d).apply s =
      (match (d.elementPuts version ++ d.otherPuts version).head? with
        | some p => .error (.noOwner p.kind.title (p.kind.entryName p.entry)
            p.kind.ownerKind.tableName p.owner)
        | none => .ok d.counts, s) := by
  unfold importInto Document.elementPuts Document.otherPuts Document.counts
  cases d.classes with
  | cons e es =>
    exact apply_bind_error (reconcileAll_apply_of_missing (k := .classes) e es h) _
  | nil =>
    -- No classes are no links and no members of classes, so all of that leaves the store alone.
    refine (apply_bind_ok (show _ = (Except.ok [], s) from rfl) _).trans ?_
    cases d.interfaces with
    | cons e es =>
      exact apply_bind_error (reconcileAll_apply_of_missing (k := .interfaces) e es h) _
    | nil =>
      cases d.functions with
      | cons e es =>
        exact apply_bind_error (reconcileAll_apply_of_missing (k := .functions) e es h) _
      | nil =>
        cases d.aliases with
        | cons e es =>
          exact apply_bind_error (reconcileAll_apply_of_missing (k := .aliases) e es h) _
        | nil => rfl

/-- Without its version an import has done nothing when it fails. -/
theorem importDocument_apply_of_missing (h : s.versions.has version = false) :
    (importDocument version d).apply s = (importInto version d).apply s := by
  unfold importDocument
  rw [apply_atomic, importInto_apply_of_missing h]
  cases (d.elementPuts version ++ d.otherPuts version).head? <;> rfl

end Change
end ApiCatalog
