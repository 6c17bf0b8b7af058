import ApiCatalog.Proofs.Store.Settled

/-!
# What an import leaves behind

The passes of an import do not get in each other's way. Links leave entries settled, as what a
class extends is no matter of its entry's row; members, functions and aliases are put in other
places than classes and interfaces, and leave their names and links alone. So behind an import the
last entry of every place is settled, and the last class and interface of every id is linked.
-/

namespace ApiCatalog

/-! ## Links and rows -/

namespace Put.Settled

variable {p : Put} {s : Store} {id : Int}

theorem linkClass (h : p.Settled s id) (id' version : Int) (e : ClassEntry) :
    p.Settled (s.linkClass id' version e) id where
  row := by
    obtain ⟨row, hrow, hrenew⟩ := h.row
    obtain ⟨k, entry, owner⟩ := p
    cases k with
    | classes =>
      -- The class that is linked has another parent, which its entry does not speak of.
      refine ⟨if id = id' then row.extending (s.parentOf? id' version e) else row, ?_, ?_⟩
      · refine (Store.classAt?_linkClass ElementKind.classes.key e fun _ _ => rfl).trans ?_
        exact congrArg (Option.map _) hrow
      · split
        · exact congrArg (ClassRow.extending (s.parentOf? id' version e)) hrenew
        · exact hrenew
    | interfaces | classMethods | interfaceMethods | classProperties | functions | aliases =>
      exact ⟨row, hrow, hrenew⟩
  deprecation := h.deprecation
  arguments := h.arguments

theorem linkClasses (h : p.Settled s id) (version : Int) (classId : ClassEntry → Int)
    (es : List ClassEntry) : p.Settled (s.linkClasses version classId es) id := by
  induction es generalizing s with
  | nil => exact h
  | cons e es ih => exact ih (h.linkClass (classId e) version e)

theorem linkInterface (h : p.Settled s id) (id' version : Int) (e : InterfaceEntry) :
    p.Settled (s.linkInterface id' version e) id where
  row := by
    obtain ⟨k, entry, owner⟩ := p
    cases k <;> exact h.row
  deprecation := h.deprecation
  arguments := h.arguments

theorem linkInterfaces (h : p.Settled s id) (version : Int) (interfaceId : InterfaceEntry → Int)
    (es : List InterfaceEntry) : p.Settled (s.linkInterfaces version interfaceId es) id := by
  induction es generalizing s with
  | nil => exact h
  | cons e es ih => exact ih (h.linkInterface (interfaceId e) version e)

end Put.Settled

namespace Store

variable {s : Store} {version c : Int}

/-- Of the classes linked under one id, the last one is linked in the end. -/
theorem classLinked_linkClasses (version : Int) {classId : ClassEntry → Int} {es : List ClassEntry}
    {e : ClassEntry} (h : lastWith? classId c es = some e) :
    (s.linkClasses version classId es).ClassLinked c version e := by
  obtain rfl := key_of_lastWith? h
  refine foldl_of_lastWith? (P := fun s => s.ClassLinked (classId e) version e) h (fun s => ?_)
    (fun s e' hne hlinked => ?_) s
  · exact .linkClass_self
  · exact hlinked.linkClass_of_ne hne

theorem interfaceLinked_linkInterfaces (version : Int) {interfaceId : InterfaceEntry → Int}
    {es : List InterfaceEntry} {e : InterfaceEntry} (h : lastWith? interfaceId c es = some e) :
    (s.linkInterfaces version interfaceId es).InterfaceLinked c version e := by
  obtain rfl := key_of_lastWith? h
  refine foldl_of_lastWith? (P := fun s => s.InterfaceLinked (interfaceId e) version e) h
    (fun s => ?_) (fun s e' hne hlinked => ?_) s
  · exact .linkInterface_self
  · exact hlinked.linkInterface_of_ne hne

/-- Linking interfaces changes nothing but the links between them. -/
theorem linkInterfaces_eq (version : Int) (interfaceId : InterfaceEntry → Int)
    (es : List InterfaceEntry) :
    ∃ links, s.linkInterfaces version interfaceId es = { s with interfaceParents := links } := by
  induction es generalizing s with
  | nil => exact ⟨_, rfl⟩
  | cons e es ih =>
    obtain ⟨links, hlinks⟩ := ih (s := s.linkInterface (interfaceId e) version e)
    exact ⟨links, hlinks⟩

/-! ## Puts and links -/

theorem putAll_table_of_ne {k : ElementKind} {ps : List Put} (h : ∀ p ∈ ps, k ≠ p.kind) :
    (s.putAll ps).table k = s.table k := by
  induction ps generalizing s with
  | nil => rfl
  | cons p ps ih =>
    have hrest := ih (s := s.put p) fun q hq => h q (List.mem_cons_of_mem _ hq)
    exact hrest.trans (s.put_table_of_ne p (h p List.mem_cons_self))

@[simp] theorem putAll_interfaceParents (ps : List Put) :
    (s.putAll ps).interfaceParents = s.interfaceParents := by
  induction ps generalizing s with
  | nil => rfl
  | cons p ps ih => exact ih.trans (s.put_interfaceParents p)

@[simp] theorem putAll_classInterfaces (ps : List Put) :
    (s.putAll ps).classInterfaces = s.classInterfaces := by
  induction ps generalizing s with
  | nil => rfl
  | cons p ps ih => exact ih.trans (s.put_classInterfaces p)

variable {d : Document} {p : Put}

theorem kind_of_mem_elementPuts (h : p ∈ d.elementPuts version) :
    p.kind = .classes ∨ p.kind = .interfaces := by
  unfold Document.elementPuts at h
  rcases List.mem_append.1 h with h | h
  · obtain ⟨e, -, rfl⟩ := List.mem_map.1 h
    exact .inl rfl
  · obtain ⟨e, -, rfl⟩ := List.mem_map.1 h
    exact .inr rfl

theorem kind_of_mem_memberPuts (h : p ∈ s.memberPuts version d) :
    .classes ≠ p.kind ∧ .interfaces ≠ p.kind := by
  unfold memberPuts classPuts interfacePuts Document.otherPuts at h
  unfold ClassEntry.puts InterfaceEntry.puts at h
  simp only [List.mem_append, List.mem_flatMap, List.mem_map] at h
  rcases h with (⟨_, -, ⟨_, -, rfl⟩ | ⟨_, -, rfl⟩⟩ | ⟨_, -, _, -, rfl⟩) | ⟨_, -, rfl⟩ | ⟨_, -, rfl⟩
  all_goals exact ⟨nofun, nofun⟩

/-! ## Behind an import -/

/-- The last entry of each class and interface is settled behind an import. -/
theorem settled_element {c : ElementKind × NaturalKey}
    (h : lastWith? Put.place c (d.elementPuts version) = some p) :
    p.Settled (s.withDocument version d) ((s.withElements version d).idOf p) := by
  have helements : p.Settled (s.withElements version d) _ := settled_putAll h
  have hlinked := (helements.linkClasses version ((s.withElements version d).classId version)
    d.classes).linkInterfaces version ((s.withElements version d).interfaceId version) d.interfaces
  -- The last pass puts neither classes nor interfaces.
  refine hlinked.putAll_of_ne fun q hq hplace => ?_
  have hkind : q.kind = p.kind := congrArg Prod.fst hplace
  obtain ⟨hclasses, hinterfaces⟩ := kind_of_mem_memberPuts hq
  rw [hkind] at hclasses hinterfaces
  rcases kind_of_mem_elementPuts (mem_of_lastWith? h) with hk | hk
  · exact hclasses hk.symm
  · exact hinterfaces hk.symm

/-- The last entry of each member, function and alias is settled behind an import. -/
theorem settled_member {c : ElementKind × NaturalKey}
    (h : lastWith? Put.place c ((s.withElements version d).memberPuts version d) = some p) :
    p.Settled (s.withDocument version d) ((s.withDocument version d).idOf p) :=
  settled_putAll h

/-- The last entry of each class is linked behind an import. -/
theorem classLinked_withDocument {e : ClassEntry}
    (h : lastWith? ((s.withElements version d).classId version) c d.classes = some e) :
    (s.withDocument version d).ClassLinked c version e := by
  have hlinked := classLinked_linkClasses (s := s.withElements version d) version h
  obtain ⟨links, hlinks⟩ := linkInterfaces_eq
    (s := (s.withElements version d).linkClasses version ((s.withElements version d).classId version)
      d.classes) version ((s.withElements version d).interfaceId version) d.interfaces
  -- Links of interfaces are no matter of what classes extend and implement.
  have hall : ((s.withElements version d).linkAll version d).ClassLinked c version e := by
    unfold linkAll
    rw [hlinks]
    exact hlinked.congr rfl rfl rfl
  refine hall.congr ?_ ?_ (putAll_classInterfaces _)
  · exact putAll_table_of_ne (k := .classes) fun q hq => (kind_of_mem_memberPuts hq).1
  · exact putAll_table_of_ne (k := .interfaces) fun q hq => (kind_of_mem_memberPuts hq).2

/-- The last entry of each interface is linked behind an import. -/
theorem interfaceLinked_withDocument {e : InterfaceEntry}
    (h : lastWith? ((s.withElements version d).interfaceId version) c d.interfaces = some e) :
    (s.withDocument version d).InterfaceLinked c version e := by
  refine (interfaceLinked_linkInterfaces version h).congr ?_ (putAll_interfaceParents _)
  exact putAll_table_of_ne (k := .interfaces) fun q hq => (kind_of_mem_memberPuts hq).2

end Store

end ApiCatalog
