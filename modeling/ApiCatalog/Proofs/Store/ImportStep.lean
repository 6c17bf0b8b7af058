import ApiCatalog.Proofs.Store.Import
import Mathlib.Logic.Relation

/-!
# An import step by step

An import changes the store by small steps: one entry is put, or one class or interface is linked.
`ImportStep` says which entries and which links these are. Entries of classes, interfaces, functions
and aliases are put under the version, members under the id of a class or interface that the
document declares, and only such classes and interfaces are linked.

That an import is a sequence of such steps (`ImportSteps.withDocument`) is shown once, here. What
each step keeps is then kept by the whole import.
-/

namespace ApiCatalog

/-- An import puts the entry: the document declares it, and what it is put under is there. -/
inductive Store.Puts (s : Store) (version : Int) (d : Document) (p : Put) : Prop
  | element (hversion : s.versions.has version = true)
      (hp : p ∈ d.elementPuts version ++ d.otherPuts version)
  | classMember {e : ClassEntry} {id : Int} (he : e ∈ d.classes)
      (hid : Put.Stored ⟨.classes, e, version⟩ s id) (hp : p ∈ e.puts id)
  | interfaceMember {e : InterfaceEntry} {id : Int} (he : e ∈ d.interfaces)
      (hid : Put.Stored ⟨.interfaces, e, version⟩ s id) (hp : p ∈ e.puts id)

/-- An import changes one thing. -/
inductive ImportStep (version : Int) (d : Document) : Store → Store → Prop
  | put {s : Store} {p : Put} (hp : s.Puts version d p) : ImportStep version d s (s.put p)
  | linkClass {s : Store} (e : ClassEntry) (id : Int) (he : e ∈ d.classes)
      (hid : Put.Stored ⟨.classes, e, version⟩ s id) :
      ImportStep version d s (s.linkClass id version e)
  | linkInterface {s : Store} (e : InterfaceEntry) (id : Int) (he : e ∈ d.interfaces)
      (hid : Put.Stored ⟨.interfaces, e, version⟩ s id) :
      ImportStep version d s (s.linkInterface id version e)

/-- One after the other, steps of an import lead from a store to another. -/
abbrev ImportSteps (version : Int) (d : Document) : Store → Store → Prop :=
  Relation.ReflTransGen (ImportStep version d)

variable {s : Store} {version : Int} {d : Document} {classId : ClassEntry → Int}
  {interfaceId : InterfaceEntry → Int}

/-! ## Steps have what they need -/

namespace Store.Puts

variable {p : Put}

/-- What is put has its owner. -/
theorem hasOwner (h : s.Puts version d p) : s.hasOwner p.kind.ownerKind p.owner = true := by
  cases h with
  | element hversion hp =>
    have howner : p.kind.ownerKind = .versions ∧ p.owner = version :=
      (List.mem_append.1 hp).elim Document.owner_of_mem_elementPuts Document.owner_of_mem_otherPuts
    rw [howner.1, howner.2]
    exact hversion
  | classMember he hid hp =>
    obtain ⟨hkind, howner⟩ := ClassEntry.owner_of_mem_puts hp
    rw [hkind, howner]
    exact hid.hasOwner (.inl ⟨rfl, rfl⟩)
  | interfaceMember he hid hp =>
    obtain ⟨hkind, howner⟩ := InterfaceEntry.owner_of_mem_puts hp
    rw [hkind, howner]
    exact hid.hasOwner (.inr ⟨rfl, rfl⟩)

/-- Another entry may be put before. -/
theorem put (h : s.Puts version d p) (q : Put) : (s.put q).Puts version d p := by
  cases h with
  | element hversion hp => exact .element (s.hasOwner_put q (k := .versions) hversion) hp
  | classMember he hid hp => exact .classMember he (hid.put q) hp
  | interfaceMember he hid hp => exact .interfaceMember he (hid.put q) hp

end Store.Puts

/-- All that an import puts in its last pass is put under what the first pass put. -/
theorem Store.Holds.puts {t : Store}
    (h : t.Holds version d (s.classId version) (s.interfaceId version)) :
    ∀ p ∈ s.memberPuts version d, t.Puts version d p := by
  intro p hp
  unfold Store.memberPuts at hp
  rcases List.mem_append.1 hp with hp | hp
  · rcases List.mem_append.1 hp with hp | hp
    · obtain ⟨e, he, hp⟩ := List.mem_flatMap.1 hp
      exact .classMember he (h.classes e he) hp
    · obtain ⟨e, he, hp⟩ := List.mem_flatMap.1 hp
      exact .interfaceMember he (h.interfaces e he) hp
  · exact .element h.hasVersion (List.mem_append_right _ hp)

/-! ## Pass by pass -/

namespace ImportSteps

theorem putAll (ps : List Put) (h : ∀ p ∈ ps, s.Puts version d p) :
    ImportSteps version d s (s.putAll ps) := by
  induction ps generalizing s with
  | nil => exact .refl
  | cons p ps ih =>
    refine .head (.put (h p List.mem_cons_self)) (ih fun q hq => ?_)
    exact (h q (List.mem_cons_of_mem _ hq)).put p

theorem linkClasses (es : List ClassEntry) (hs : s.Holds version d classId interfaceId)
    (h : ∀ e ∈ es, e ∈ d.classes) :
    ImportSteps version d s (s.linkClasses version classId es) := by
  induction es generalizing s with
  | nil => exact .refl
  | cons e es ih =>
    have he := h e List.mem_cons_self
    refine .head (.linkClass _ _ he (hs.classes e he)) (ih (hs.linkClass _ _ _) fun e' he' => ?_)
    exact h e' (List.mem_cons_of_mem _ he')

theorem linkInterfaces (es : List InterfaceEntry) (hs : s.Holds version d classId interfaceId)
    (h : ∀ e ∈ es, e ∈ d.interfaces) :
    ImportSteps version d s (s.linkInterfaces version interfaceId es) := by
  induction es generalizing s with
  | nil => exact .refl
  | cons e es ih =>
    have he := h e List.mem_cons_self
    refine .head (.linkInterface _ _ he (hs.interfaces e he))
      (ih (hs.linkInterface _ _ _) fun e' he' => ?_)
    exact h e' (List.mem_cons_of_mem _ he')

/-- An import is a sequence of its steps. -/
theorem withDocument (h : s.versions.has version = true) :
    ImportSteps version d s (s.withDocument version d) := by
  have hholds := Store.holds_withElements (d := d) h
  have helements : ImportSteps version d s (s.withElements version d) :=
    putAll _ fun p hp => .element h (List.mem_append_left _ hp)
  have hclasses := linkClasses d.classes hholds fun _ => id
  have hlinked := hholds.linkClasses version ((s.withElements version d).classId version) d.classes
  have hinterfaces := linkInterfaces d.interfaces hlinked fun _ => id
  have hmembers := putAll _ hholds.linkAll.puts
  exact helements.trans (hclasses.trans (hinterfaces.trans hmembers))

/-- Entries keep their ids in the course of an import. -/
theorem stored {t : Store} {p : Put} {id : Int} (h : ImportSteps version d s t)
    (hp : p.Stored s id) : p.Stored t id := by
  induction h with
  | refl => exact hp
  | tail _ hstep ih =>
    cases hstep with
    | put _ => exact ih.put _
    | linkClass e id' _ _ => exact ih.linkClass id' version e
    | linkInterface e id' _ _ => exact ih.linkInterface id' version e

end ImportSteps
end ApiCatalog
