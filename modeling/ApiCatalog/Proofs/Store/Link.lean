import ApiCatalog.Proofs.Store.Apply
import ApiCatalog.Proofs.Store.Table
import ApiCatalog.Store.Link

/-!
# Linking is redirecting

Linking a class or an interface replaces the links that lead from it: `Links.redirect`. What a name
stands for does not change by that, as linking touches no names, so all that is linked stays
linked to what its entry names.
-/

namespace ApiCatalog

/-! ## Links -/

namespace Links

variable {l m : Links} {p : Int × Int} {id : Int} {ids : List Int}

/-- A link that is put in is there, and those that were there stay. -/
theorem mem_insert {q : Int × Int} : q ∈ (l.insert p).pairs ↔ q = p ∨ q ∈ l.pairs := mem_insertPair

/-- The links of a kind are kept. -/
theorem mem_keep {q : Int × Int → Bool} : p ∈ (l.keep q).pairs ↔ p ∈ l.pairs ∧ q p = true :=
  List.mem_filter

/-- If all are of the kind, nothing changes. -/
theorem keep_eq_self {q : Int × Int → Bool} (h : ∀ p ∈ l.pairs, q p = true) : l.keep q = l :=
  Links.ext (List.filter_eq_self.2 h)

/-- No link is there twice. -/
theorem nodup (l : Links) : l.pairs.Nodup := by
  refine l.ascending.imp fun {p q} h hpq => ?_
  subst hpq
  unfold PairBefore at h
  omega

/-- Links with the same pairs in them are equal. -/
theorem eq_of_mem_iff (h : ∀ p, p ∈ l.pairs ↔ p ∈ m.pairs) : l = m := by
  -- Pairs stand in strict order, so a permutation of them is the same list.
  have hperm : l.pairs.Perm m.pairs := (List.perm_ext_iff_of_nodup l.nodup m.nodup).2 h
  refine Links.ext (hperm.eq_of_pairwise (fun p q _ _ hpq hqp => ?_) l.ascending m.ascending)
  unfold PairBefore at hpq hqp
  omega

/-- The links with those of `id` leading to the ids given and nowhere else. -/
def redirect (l : Links) (id : Int) (ids : List Int) : Links :=
  ids.foldl (fun l i => l.insert (id, i)) (l.keep (·.1 != id))

/-- Links of a row to many others are put in one by one. -/
theorem mem_foldl_insert :
    p ∈ (ids.foldl (fun l i => l.insert (id, i)) l).pairs ↔ p.1 = id ∧ p.2 ∈ ids ∨ p ∈ l.pairs := by
  induction ids generalizing l with
  | nil => simp
  | cons i ids ih =>
    rw [List.foldl_cons, ih, mem_insert, List.mem_cons, Prod.ext_iff]
    constructor
    · rintro (⟨h₁, h₂⟩ | ⟨h₁, h₂⟩ | h)
      · exact .inl ⟨h₁, .inr h₂⟩
      · exact .inl ⟨h₁, .inl h₂⟩
      · exact .inr h
    · rintro (⟨h₁, h₂ | h₂⟩ | h)
      · exact .inr (.inl ⟨h₁, h₂⟩)
      · exact .inl ⟨h₁, h₂⟩
      · exact .inr (.inr h)

/-- The links of one row are those given, the others stay. -/
theorem mem_redirect :
    p ∈ (l.redirect id ids).pairs ↔ p.1 = id ∧ p.2 ∈ ids ∨ p.1 ≠ id ∧ p ∈ l.pairs := by
  unfold redirect
  rw [mem_foldl_insert, mem_keep, bne_iff_ne, and_comm (a := p ∈ l.pairs)]

/-- Links of other sources stay as they are. -/
theorem mem_redirect_of_ne (h : p.1 ≠ id) : p ∈ (l.redirect id ids).pairs ↔ p ∈ l.pairs := by
  rw [mem_redirect]
  simp [h]

/-- If the links of the row are those already, nothing changes. -/
theorem redirect_eq_self (h : ∀ i, (id, i) ∈ l.pairs ↔ i ∈ ids) : l.redirect id ids = l := by
  refine eq_of_mem_iff fun ⟨source, target⟩ => ?_
  rw [mem_redirect]
  by_cases hsource : source = id
  · subst hsource
    simp [h target]
  · simp [hsource]

end Links

/-! ## Names -/

/-- What an element is found by when another one names it. -/
def ElementRow.nameKey (r : ElementRow) : Int × String := (r.version, r.name)

@[inherit_doc ElementRow.nameKey]
def ClassRow.nameKey (r : ClassRow) : Int × String := r.toElementRow.nameKey

/-- The class as an extension of `parent`. -/
def ClassRow.extending (parent : Option Int) (r : ClassRow) : ClassRow := { r with parent }

/-- A class that extends another one has it for its parent. -/
@[simp] theorem ClassRow.parent_extending (parent : Option Int) (r : ClassRow) :
    (r.extending parent).parent = parent := rfl

namespace Store

variable {s s' : Store} {id version : Int}

/-- A class is looked for by its version and name. -/
theorem classNamed?_eq (name : String) :
    s.classNamed? version name =
      s.classes.at? ClassRow.nameKey (version, absoluteName name) := rfl

theorem interfaceNamed?_eq (name : String) :
    s.interfaceNamed? version name =
      s.interfaces.at? ElementRow.nameKey (version, absoluteName name) := rfl

/-- The interfaces of some names are those that are found under one of them. -/
theorem mem_interfacesNamed {names : List String} {i : Int} :
    i ∈ s.interfacesNamed version names ↔
      ∃ name ∈ names, ∃ r, s.interfaceNamed? version name = some r ∧ r.id = i := by
  simp [interfacesNamed]

/-- Each of them is there. -/
theorem has_of_mem_interfacesNamed {names : List String} {i : Int}
    (h : i ∈ s.interfacesNamed version names) : s.interfaces.has i = true := by
  obtain ⟨name, -, r, hr, rfl⟩ := mem_interfacesNamed.1 h
  rw [interfaceNamed?_eq] at hr
  exact Table.has_iff.2 ⟨r, Table.mem_of_at? hr, rfl⟩

/-- They depend on the interfaces alone. -/
theorem interfacesNamed_congr (h : s'.interfaces = s.interfaces) (names : List String) :
    s'.interfacesNamed version names = s.interfacesNamed version names := by
  unfold interfacesNamed interfaceNamed?
  rw [h]

/-! ## Linking -/

/-- The store with a class linked as its entry says. -/
def linkClass (s : Store) (id version : Int) (e : ClassEntry) : Store :=
  { s with
    classes := s.classes.update id (ClassRow.extending (s.parentOf? id version e))
    classInterfaces := s.classInterfaces.redirect id (s.interfacesNamed version e.implements) }

/-- The store with an interface linked as its entry says. -/
def linkInterface (s : Store) (id version : Int) (e : InterfaceEntry) : Store :=
  { s with
    interfaceParents :=
      s.interfaceParents.redirect id ((s.interfacesNamed version e.parents).filter (· != id)) }

/-- Only the parent of the class that is linked changes. -/
theorem mem_classes_linkClass {e : ClassEntry} {r : Record ClassRow} :
    r ∈ (s.linkClass id version e).classes.records ↔ ∃ q ∈ s.classes.records,
      ⟨q.id, if q.id = id then q.row.extending (s.parentOf? id version e) else q.row⟩ = r :=
  Table.mem_mapRows

/-- Classes are found as before, by whatever has nothing to do with what they extend. -/
theorem classAt?_linkClass {κ : Type} [BEq κ] (key : ClassRow → κ) {c : κ} (e : ClassEntry)
    (hkey : ∀ parent row, key (ClassRow.extending parent row) = key row) :
    (s.linkClass id version e).classes.at? key c =
      (s.classes.at? key c).map fun r =>
        ⟨r.id, if r.id = id then r.row.extending (s.parentOf? id version e) else r.row⟩ := by
  refine Table.at?_mapRows fun r _ => ?_
  split
  · exact hkey _ _
  · rfl

/-- Linking a class changes nothing in which class has which name. -/
theorem classNamed?_linkClass (e : ClassEntry) (version' : Int) (name : String) :
    ((s.linkClass id version e).classNamed? version' name).map Record.id =
      (s.classNamed? version' name).map Record.id := by
  rw [classNamed?_eq, classNamed?_eq, classAt?_linkClass ClassRow.nameKey e fun _ _ => rfl,
    Option.map_map]
  rfl

theorem parentOf?_linkClass (e : ClassEntry) (id' version' : Int) (e' : ClassEntry) :
    (s.linkClass id version e).parentOf? id' version' e' = s.parentOf? id' version' e' := by
  unfold parentOf?
  rw [classNamed?_linkClass]

@[simp] theorem interfacesNamed_linkClass (e : ClassEntry) (version' : Int)
    (names : List String) :
    (s.linkClass id version e).interfacesNamed version' names =
      s.interfacesNamed version' names := rfl

@[simp] theorem interfacesNamed_linkInterface (e : InterfaceEntry) (version' : Int)
    (names : List String) :
    (s.linkInterface id version e).interfacesNamed version' names =
      s.interfacesNamed version' names := rfl

/-- The links of a class are those to the interfaces that it names. -/
@[simp] theorem classInterfaces_linkClass (e : ClassEntry) :
    (s.linkClass id version e).classInterfaces =
      s.classInterfaces.redirect id (s.interfacesNamed version e.implements) := rfl

/-- Those of an interface leave itself out. -/
@[simp] theorem interfaceParents_linkInterface (e : InterfaceEntry) :
    (s.linkInterface id version e).interfaceParents =
      s.interfaceParents.redirect id ((s.interfacesNamed version e.parents).filter (· != id)) := rfl

/-- The class extends and implements what its entry says. -/
structure ClassLinked (s : Store) (id version : Int) (e : ClassEntry) : Prop where
  parent : ∀ row, s.classes.get? id = some row → row.parent = s.parentOf? id version e
  interfaces : ∀ i, (id, i) ∈ s.classInterfaces.pairs ↔ i ∈ s.interfacesNamed version e.implements

/-- The interface extends what its entry says. -/
def InterfaceLinked (s : Store) (id version : Int) (e : InterfaceEntry) : Prop :=
  ∀ i, (id, i) ∈ s.interfaceParents.pairs ↔ i ∈ s.interfacesNamed version e.parents ∧ i ≠ id

namespace ClassLinked

variable {e : ClassEntry}

/-- A class that has just been linked is linked. -/
theorem linkClass_self : (s.linkClass id version e).ClassLinked id version e where
  parent row hrow := by
    obtain ⟨r, hr, heq⟩ := Table.mem_mapRows.1 (Table.get?_eq_some_iff.1 hrow)
    obtain ⟨hid, rfl⟩ := Record.mk.injEq .. ▸ heq
    rw [parentOf?_linkClass, if_pos hid, ClassRow.parent_extending]
  interfaces i := by simp [Links.mem_redirect]

/-- Linking it again changes nothing. -/
theorem linkClass_eq_self (h : s.ClassLinked id version e) : s.linkClass id version e = s := by
  have hclasses : (s.linkClass id version e).classes = s.classes := by
    show s.classes.update id (ClassRow.extending (s.parentOf? id version e)) = s.classes
    refine Table.mapRows_eq_self fun r hr => ?_
    split
    · next hid =>
      subst hid
      rw [← h.parent r.row (Table.get?_eq_some_iff.2 hr)]
      rfl
    · rfl
  have hlinks : (s.linkClass id version e).classInterfaces = s.classInterfaces :=
    Links.redirect_eq_self h.interfaces
  unfold linkClass at hclasses hlinks ⊢
  dsimp only at hclasses hlinks
  rw [hclasses, hlinks]

/-- Whether a class is linked depends on classes, interfaces and their links. -/
theorem congr (h : s.ClassLinked id version e) (hclasses : s'.classes = s.classes)
    (hinterfaces : s'.interfaces = s.interfaces) (hlinks : s'.classInterfaces = s.classInterfaces) :
    s'.ClassLinked id version e where
  parent row hrow := by
    rw [hclasses] at hrow
    rw [h.parent row hrow]
    unfold parentOf? classNamed?
    rw [hclasses]
  interfaces i := by rw [hlinks, interfacesNamed_congr hinterfaces, h.interfaces]

/-- Linking another class leaves a class linked. -/
theorem linkClass_of_ne (h : s.ClassLinked id version e) {id' version' : Int} {e' : ClassEntry}
    (hne : id' ≠ id) : (s.linkClass id' version' e').ClassLinked id version e where
  parent row hrow := by
    obtain ⟨r, hr, heq⟩ := Table.mem_mapRows.1 (Table.get?_eq_some_iff.1 hrow)
    obtain ⟨rfl, rfl⟩ := Record.mk.injEq .. ▸ heq
    rw [parentOf?_linkClass, if_neg (Ne.symm hne)]
    exact h.parent r.row (Table.get?_eq_some_iff.2 hr)
  interfaces i := by simp [Links.mem_redirect, Ne.symm hne, h.interfaces]

end ClassLinked

namespace InterfaceLinked

variable {e : InterfaceEntry}

/-- An interface that has just been linked is linked. -/
theorem linkInterface_self : (s.linkInterface id version e).InterfaceLinked id version e := by
  intro i
  simp [Links.mem_redirect]

/-- Linking it again changes nothing. -/
theorem linkInterface_eq_self (h : s.InterfaceLinked id version e) :
    s.linkInterface id version e = s := by
  have hlinks : (s.linkInterface id version e).interfaceParents = s.interfaceParents := by
    refine Links.redirect_eq_self fun i => ?_
    rw [h i]
    simp
  unfold linkInterface at hlinks ⊢
  dsimp only at hlinks
  rw [hlinks]

/-- Whether an interface is linked depends on interfaces and their links. -/
theorem congr (h : s.InterfaceLinked id version e) (hinterfaces : s'.interfaces = s.interfaces)
    (hlinks : s'.interfaceParents = s.interfaceParents) : s'.InterfaceLinked id version e := by
  intro i
  rw [hlinks, interfacesNamed_congr hinterfaces, h i]

/-- Linking another interface makes no difference. -/
theorem linkInterface_of_ne (h : s.InterfaceLinked id version e) {id' version' : Int}
    {e' : InterfaceEntry} (hne : id' ≠ id) :
    (s.linkInterface id' version' e').InterfaceLinked id version e := by
  intro i
  simp [Links.mem_redirect, Ne.symm hne, h i]

end InterfaceLinked
end Store

/-! ## What links come to -/

namespace Change

variable {s : Store} {id version : Int}

/-- A link between rows that are there is put in. -/
theorem addClassInterface_apply {link : Int × Int} (hclass : s.classes.has link.1 = true)
    (hinterface : s.interfaces.has link.2 = true) :
    (addClassInterface link).apply s =
      (.ok (), { s with classInterfaces := s.classInterfaces.insert link }) := by
  have hboth : (s.classes.has link.1 && s.interfaces.has link.2) = true := by
    rw [hclass, hinterface, Bool.and_self]
  unfold addClassInterface
  rw [apply_get_bind, apply_bind_ok (checkReference_apply hboth)]
  rfl

theorem addInterfaceParent_apply {link : Int × Int} (hsource : s.interfaces.has link.1 = true)
    (htarget : s.interfaces.has link.2 = true) :
    (addInterfaceParent link).apply s =
      (.ok (), { s with interfaceParents := s.interfaceParents.insert link }) := by
  have hboth : (s.interfaces.has link.1 && s.interfaces.has link.2) = true := by
    rw [hsource, htarget, Bool.and_self]
  unfold addInterfaceParent
  rw [apply_get_bind, apply_bind_ok (checkReference_apply hboth)]
  rfl

/-- Links from one class to interfaces that are there are made one by one. -/
theorem forM_addClassInterface_apply {ids : List Int} (hclass : s.classes.has id = true)
    (hids : ∀ i ∈ ids, s.interfaces.has i = true) :
    (ids.forM fun i => addClassInterface (id, i)).apply s =
      (.ok (), { s with
        classInterfaces := ids.foldl (fun l i => l.insert (id, i)) s.classInterfaces }) := by
  induction ids generalizing s with
  | nil => rfl
  | cons i ids ih =>
    show (addClassInterface (id, i) >>= fun _ => ids.forM _).apply s = _
    rw [apply_bind_ok (addClassInterface_apply hclass (hids i List.mem_cons_self))]
    exact ih hclass fun j hj => hids j (List.mem_cons_of_mem _ hj)

theorem forM_addInterfaceParent_apply {ids : List Int} (hsource : s.interfaces.has id = true)
    (hids : ∀ i ∈ ids, s.interfaces.has i = true) :
    (ids.forM fun i => addInterfaceParent (id, i)).apply s =
      (.ok (), { s with
        interfaceParents := ids.foldl (fun l i => l.insert (id, i)) s.interfaceParents }) := by
  induction ids generalizing s with
  | nil => rfl
  | cons i ids ih =>
    show (addInterfaceParent (id, i) >>= fun _ => ids.forM _).apply s = _
    rw [apply_bind_ok (addInterfaceParent_apply hsource (hids i List.mem_cons_self))]
    exact ih hsource fun j hj => hids j (List.mem_cons_of_mem _ hj)

/-- Linking a class that is there cannot fail: only interfaces that are there are linked to. -/
theorem linkClass_apply (e : ClassEntry) (h : s.classes.has id = true) :
    (linkClass id version e).apply s = (.ok (), s.linkClass id version e) := by
  unfold linkClass
  rw [apply_get_bind]
  dsimp only
  rw [apply_set_bind]
  refine forM_addClassInterface_apply (Table.has_mapRows.trans h) fun i hi => ?_
  exact Store.has_of_mem_interfacesNamed hi

/-- Linking an interface that is there succeeds. -/
theorem linkInterface_apply (e : InterfaceEntry) (h : s.interfaces.has id = true) :
    (linkInterface id version e).apply s = (.ok (), s.linkInterface id version e) := by
  unfold linkInterface
  rw [apply_get_bind]
  dsimp only
  rw [apply_set_bind]
  refine forM_addInterfaceParent_apply h fun i hi => ?_
  exact Store.has_of_mem_interfacesNamed (List.mem_filter.1 hi).1

end Change
end ApiCatalog
