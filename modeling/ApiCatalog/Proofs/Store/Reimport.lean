import ApiCatalog.Proofs.Store.Declared
import ApiCatalog.Proofs.Store.Reachable
import Mathlib.Data.List.Basic

/-!
# Importing a document again

An import of a document that was just imported changes nothing, if the document declares no element
and no member of one twice. Behind the first import all entries are settled and linked, so that
nothing is left to do: rows, deprecations and arguments are found under their keys and are as they
are to be, and every name stands for what it stood for before.

Aliases may be declared more than once. Only what their last entry says remains of the others, and
nothing but their own row hangs on them.
-/

namespace ApiCatalog

/-- No class, interface or function is declared twice, nor is a member in one entry. -/
structure Document.Distinct (d : Document) : Prop where
  classes : (d.classes.map ClassEntry.key).Nodup
  interfaces : (d.interfaces.map InterfaceEntry.key).Nodup
  functions : (d.functions.map FunctionEntry.key).Nodup
  methods : ∀ e ∈ d.classes, (e.methods.map MethodEntry.name).Nodup
  properties : ∀ e ∈ d.classes, (e.properties.map PropertyEntry.name).Nodup
  interfaceMethods : ∀ e ∈ d.interfaces, (e.methods.map MethodEntry.name).Nodup

namespace Store

variable {s : Store} {version : Int} {d : Document}

/-! ## Nothing left to do -/

theorem linkClasses_eq_self {classId : ClassEntry → Int} {es : List ClassEntry}
    (h : ∀ e ∈ es, s.ClassLinked (classId e) version e) : s.linkClasses version classId es = s := by
  induction es with
  | nil => rfl
  | cons e es ih =>
    show (s.linkClass (classId e) version e).linkClasses version classId es = s
    rw [(h e List.mem_cons_self).linkClass_eq_self]
    exact ih fun e' he' => h e' (List.mem_cons_of_mem _ he')

theorem linkInterfaces_eq_self {interfaceId : InterfaceEntry → Int} {es : List InterfaceEntry}
    (h : ∀ e ∈ es, s.InterfaceLinked (interfaceId e) version e) :
    s.linkInterfaces version interfaceId es = s := by
  induction es with
  | nil => rfl
  | cons e es ih =>
    show (s.linkInterface (interfaceId e) version e).linkInterfaces version interfaceId es = s
    rw [(h e List.mem_cons_self).linkInterface_eq_self]
    exact ih fun e' he' => h e' (List.mem_cons_of_mem _ he')

/-- Putting aliases writes their rows and nothing else. -/
theorem putAll_aliases (es : List AliasEntry) :
    s.putAll (es.map (Put.mk .aliases · version)) =
      { s with aliases := s.aliases.writeAll (es.map (ElementKind.aliases.write · version)) } := by
  induction es generalizing s with
  | nil => rfl
  | cons e es ih =>
    show (s.put ⟨.aliases, e, version⟩).putAll (es.map (Put.mk .aliases · version)) = _
    rw [ih]
    rfl

/-- Aliases that were just put are not changed by putting them again. -/
theorem putAll_aliases_twice (es : List AliasEntry) :
    (s.putAll (es.map (Put.mk .aliases · version))).putAll (es.map (Put.mk .aliases · version)) =
      s.putAll (es.map (Put.mk .aliases · version)) := by
  have hcover : ∀ w ∈ es.map (ElementKind.aliases.write · version),
      ∀ w' ∈ es.map (ElementKind.aliases.write · version), w.target = w'.target →
        ∀ row, w.renew (w'.renew row) = w.renew row := by
    intro w hw w' hw' _ row
    obtain ⟨e, -, rfl⟩ := List.mem_map.1 hw
    obtain ⟨e', -, rfl⟩ := List.mem_map.1 hw'
    rfl
  rw [putAll_aliases, putAll_aliases, Table.writeAll_writeAll hcover]

/-! ## Behind the import of a document without doubles -/

section
variable (hd : d.Distinct)
include hd

theorem settled_elementPuts :
    ∀ p ∈ d.elementPuts version, ∃ id, p.Settled (s.withDocument version d) id := by
  intro p hp
  rcases List.mem_append.1 hp with hp | hp
  · obtain ⟨e, he, rfl⟩ := List.mem_map.1 hp
    exact ⟨_, settled_class (lastWith?_of_nodup hd.classes he)⟩
  · obtain ⟨e, he, rfl⟩ := List.mem_map.1 hp
    exact ⟨_, settled_interface (lastWith?_of_nodup hd.interfaces he)⟩

theorem classMethods_of_distinct {e : ClassEntry} (he : e ∈ d.classes) :
    d.classMethods e.key = e.methods := by
  unfold Document.classMethods
  rw [filter_key_of_nodup hd.classes he, List.flatMap_singleton]

theorem classProperties_of_distinct {e : ClassEntry} (he : e ∈ d.classes) :
    d.classProperties e.key = e.properties := by
  unfold Document.classProperties
  rw [filter_key_of_nodup hd.classes he, List.flatMap_singleton]

theorem interfaceMethods_of_distinct {e : InterfaceEntry} (he : e ∈ d.interfaces) :
    d.interfaceMethods e.key = e.methods := by
  unfold Document.interfaceMethods
  rw [filter_key_of_nodup hd.interfaces he, List.flatMap_singleton]

theorem settled_classPuts : ∀ p ∈ (s.withElements version d).classPuts version d,
    ∃ id, p.Settled (s.withDocument version d) id := by
  intro p hp
  obtain ⟨e, he, hp⟩ := List.mem_flatMap.1 hp
  rcases List.mem_append.1 hp with hp | hp
  · obtain ⟨m, hm, rfl⟩ := List.mem_map.1 hp
    refine ⟨_, settled_classMethod he m.name ?_⟩
    rw [classMethods_of_distinct hd he]
    exact lastWith?_of_nodup (hd.methods e he) hm
  · obtain ⟨m, hm, rfl⟩ := List.mem_map.1 hp
    refine ⟨_, settled_classProperty he m.name ?_⟩
    rw [classProperties_of_distinct hd he]
    exact lastWith?_of_nodup (hd.properties e he) hm

theorem settled_interfacePuts : ∀ p ∈ (s.withElements version d).interfacePuts version d,
    ∃ id, p.Settled (s.withDocument version d) id := by
  intro p hp
  obtain ⟨e, he, hp⟩ := List.mem_flatMap.1 hp
  obtain ⟨m, hm, rfl⟩ := List.mem_map.1 hp
  refine ⟨_, settled_interfaceMethod he m.name ?_⟩
  rw [interfaceMethods_of_distinct hd he]
  exact lastWith?_of_nodup (hd.interfaceMethods e he) hm

theorem settled_functionPuts : ∀ p ∈ d.functions.map (Put.mk .functions · version),
    ∃ id, p.Settled (s.withDocument version d) id := by
  intro p hp
  obtain ⟨e, he, rfl⟩ := List.mem_map.1 hp
  exact ⟨_, settled_function (lastWith?_of_nodup hd.functions he)⟩

theorem classId_withDocument {e : ClassEntry} (he : e ∈ d.classes) :
    (s.withDocument version d).classId version e = (s.withElements version d).classId version e :=
  (settled_class (lastWith?_of_nodup hd.classes he)).stored.idOf_eq

theorem interfaceId_withDocument {e : InterfaceEntry} (he : e ∈ d.interfaces) :
    (s.withDocument version d).interfaceId version e =
      (s.withElements version d).interfaceId version e :=
  (settled_interface (lastWith?_of_nodup hd.interfaces he)).stored.idOf_eq

/-- Members are put again where they were put. -/
theorem memberPuts_withDocument :
    (s.withDocument version d).memberPuts version d =
      (s.withElements version d).memberPuts version d := by
  have hclasses : (s.withDocument version d).classPuts version d =
      (s.withElements version d).classPuts version d :=
    List.flatMap_congr fun e he => by rw [classId_withDocument hd he]
  have hinterfaces : (s.withDocument version d).interfacePuts version d =
      (s.withElements version d).interfacePuts version d :=
    List.flatMap_congr fun e he => by rw [interfaceId_withDocument hd he]
  unfold memberPuts
  rw [hclasses, hinterfaces]

theorem linkAll_withDocument :
    (s.withDocument version d).linkAll version d = s.withDocument version d := by
  have hclasses : ∀ e ∈ d.classes, (s.withDocument version d).ClassLinked
      ((s.withDocument version d).classId version e) version e := by
    intro e he
    rw [classId_withDocument hd he]
    exact classLinked_of_last _ _ (lastWith?_of_nodup hd.classes he)
  have hinterfaces : ∀ e ∈ d.interfaces, (s.withDocument version d).InterfaceLinked
      ((s.withDocument version d).interfaceId version e) version e := by
    intro e he
    rw [interfaceId_withDocument hd he]
    exact interfaceLinked_of_last _ _ (lastWith?_of_nodup hd.interfaces he)
  unfold linkAll
  rw [linkClasses_eq_self hclasses, linkInterfaces_eq_self hinterfaces]

/-- All but the aliases are settled, and the aliases were put last. -/
theorem putAll_memberPuts_withDocument :
    (s.withDocument version d).putAll ((s.withElements version d).memberPuts version d) =
      s.withDocument version d := by
  have hsettled : ∀ p ∈ (s.withElements version d).classPuts version d ++
      (s.withElements version d).interfacePuts version d ++
        d.functions.map (Put.mk .functions · version),
      ∃ id, p.Settled (s.withDocument version d) id := by
    intro p hp
    rcases List.mem_append.1 hp with hp | hp
    · rcases List.mem_append.1 hp with hp | hp
      · exact settled_classPuts hd p hp
      · exact settled_interfacePuts hd p hp
    · exact settled_functionPuts hd p hp
  -- Doubles of an alias settle only together, so the aliases are taken as they were put last.
  have hputs : (s.withElements version d).memberPuts version d =
      (s.withElements version d).classPuts version d ++
        (s.withElements version d).interfacePuts version d ++
          d.functions.map (Put.mk .functions · version) ++
            d.aliases.map (Put.mk .aliases · version) :=
    (List.append_assoc ..).symm
  rw [hputs, putAll_append, putAll_eq_self hsettled]
  unfold withDocument
  dsimp only
  rw [hputs, putAll_append]
  exact putAll_aliases_twice d.aliases

/-- An import repeated leaves the store as it is. -/
theorem withDocument_withDocument :
    (s.withDocument version d).withDocument version d = s.withDocument version d := by
  -- Each pass finds its work done.
  have helements : (s.withDocument version d).withElements version d = s.withDocument version d :=
    putAll_eq_self (settled_elementPuts hd)
  have hagain : (s.withDocument version d).withDocument version d =
      (((s.withDocument version d).withElements version d).linkAll version d).putAll
        (((s.withDocument version d).withElements version d).memberPuts version d) := rfl
  rw [hagain, helements, linkAll_withDocument hd, memberPuts_withDocument hd,
    putAll_memberPuts_withDocument hd]

end
end Store

namespace Change

/-- An import into a version that is there succeeds, and the same import once more comes to the same
counts and changes nothing. -/
theorem importDocument_again {s : Store} {version : Int} {d : Document}
    (h : s.versions.has version = true) (hd : d.Distinct) :
    ∃ counts s', (importDocument version d).apply s = (.ok counts, s') ∧
      (importDocument version d).apply s' = (.ok counts, s') := by
  have hagain : (s.withDocument version d).versions.has version = true :=
    (Store.holds_withElements (d := d) h).linkAll.putAll _ |>.hasVersion
  refine ⟨d.counts, s.withDocument version d, importDocument_apply h, ?_⟩
  rw [importDocument_apply hagain, Store.withDocument_withDocument hd]

theorem importDocument_again_animals :
    ∃ counts s', (importDocument 1 .animals).apply .oneVersion = (.ok counts, s') ∧
      (importDocument 1 .animals).apply s' = (.ok counts, s') := by
  have hversion : Store.oneVersion.versions.has 1 = true := by decide +kernel
  have hdistinct : Document.animals.Distinct :=
    ⟨by decide +kernel, by decide +kernel, by decide +kernel, by decide +kernel, by decide +kernel,
      by decide +kernel⟩
  exact importDocument_again hversion hdistinct

end Change
end ApiCatalog
