import ApiCatalog.Store.Change

/-!
# What changes come to

`Change.apply` runs a change on a store. These lemmas say what it makes of the parts that changes
are built from, so that a change is worked out step by step and never unfolded as a whole.
-/

namespace ApiCatalog
namespace Change

variable {α β : Type} {s s' : Store}

@[simp] theorem apply_pure (a : α) : (pure a : Change α).apply s = (.ok a, s) := rfl

@[simp] theorem apply_throw (e : Error) : (throw e : Change α).apply s = (.error e, s) := rfl

theorem apply_bind (c : Change α) (f : α → Change β) :
    (c >>= f).apply s =
      match c.apply s with
      | (.ok a, s') => (f a).apply s'
      | (.error e, s') => (.error e, s') := by
  show (match c.apply s with | (r, s') => (ExceptT.bindCont f r).run s') = _
  rcases c.apply s with ⟨_ | _, s'⟩ <;> rfl

/-- What follows a change that succeeds goes on from the store behind it. -/
theorem apply_bind_ok {c : Change α} {a : α} (h : c.apply s = (.ok a, s')) (f : α → Change β) :
    (c >>= f).apply s = (f a).apply s' := by
  rw [apply_bind, h]

/-- What follows a change that fails is not run. -/
theorem apply_bind_error {c : Change α} {e : Error} (h : c.apply s = (.error e, s'))
    (f : α → Change β) : (c >>= f).apply s = (.error e, s') := by
  rw [apply_bind, h]

@[simp] theorem apply_get_bind (f : Store → Change β) :
    ((get : Change Store) >>= f).apply s = (f s).apply s := rfl

@[simp] theorem apply_set_bind (f : PUnit → Change β) :
    ((set s' : Change PUnit) >>= f).apply s = (f ⟨⟩).apply s' := rfl

/-- Reading an element leaves the store as it is. -/
theorem getElement_bind {k : ElementKind} (id : Int) (f : Record k.Row → Change β) :
    (getElement k id >>= f).apply s =
      match (s.table k).get? id with
      | some row => (f ⟨id, row⟩).apply s
      | none => (.error (.store .noRows), s) := by
  unfold getElement
  rw [bind_assoc, apply_get_bind]
  cases (s.table k).get? id with
  | none => rfl
  | some row => rfl

/-- A part that is only run under a condition. -/
theorem apply_when {b : Bool} {c : Change PUnit} (h : c.apply s = (.ok ⟨⟩, s'))
    (f : PUnit → Change β) :
    (if b = true then c >>= f else f ⟨⟩).apply s = (f ⟨⟩).apply (if b = true then s' else s) := by
  cases b with
  | false => rfl
  | true => exact apply_bind_ok h f

/-! ## Lists -/

/-- Changes made for the items of a list, one after the other, each of which succeeds in the
stores of `P` and leads to one again. -/
theorem apply_mapM {f : α → Change β} {g : Store → α → Store} {value : α → β} {items : List α}
    (P : Store → Prop)
    (h : ∀ a ∈ items, ∀ s, P s → (f a).apply s = (.ok (value a), g s a) ∧ P (g s a)) (hs : P s) :
    (items.mapM f).apply s = (.ok (items.map value), items.foldl g s) ∧ P (items.foldl g s) := by
  induction items generalizing s with
  | nil => exact ⟨rfl, hs⟩
  | cons a items ih =>
    obtain ⟨ha, hP⟩ := h a List.mem_cons_self s hs
    obtain ⟨hrest, hend⟩ := ih (fun b hb => h b (List.mem_cons_of_mem _ hb)) hP
    refine ⟨?_, hend⟩
    rw [List.mapM_cons, apply_bind_ok ha, apply_bind_ok hrest]
    rfl

theorem apply_forM {f : α → Change PUnit} {g : Store → α → Store} {items : List α}
    (P : Store → Prop)
    (h : ∀ a ∈ items, ∀ s, P s → (f a).apply s = (.ok ⟨⟩, g s a) ∧ P (g s a)) (hs : P s) :
    (items.forM f).apply s = (.ok ⟨⟩, items.foldl g s) ∧ P (items.foldl g s) := by
  induction items generalizing s with
  | nil => exact ⟨rfl, hs⟩
  | cons a items ih =>
    obtain ⟨ha, hP⟩ := h a List.mem_cons_self s hs
    obtain ⟨hrest, hend⟩ := ih (fun b hb => h b (List.mem_cons_of_mem _ hb)) hP
    refine ⟨?_, hend⟩
    show (f a >>= fun _ => items.forM f).apply s = _
    rw [apply_bind_ok ha, hrest]
    rfl

/-! ## Checks -/

theorem checkUnique_apply {α : Type} {t : Table α} {rules : List (Uniqueness α)} {id : Int}
    {row : α}
    (h : ∀ u ∈ rules, ∀ r ∈ t.records, u.agree r.row row = false) :
    (checkUnique t rules id row).apply s = (.ok (), s) := by
  have hnone : t.broken? rules id row = none := by
    unfold Table.broken?
    rw [Option.map_eq_none_iff, List.find?_eq_none]
    intro u hu hany
    obtain ⟨r, hr, hr'⟩ := List.any_eq_true.1 hany
    simp [h u hu r hr] at hr'
  unfold checkUnique
  rw [hnone]
  rfl

theorem checkReference_apply {isThere : Bool} (h : isThere = true) :
    (checkReference isThere).apply s = (.ok (), s) := by
  rw [h]
  rfl

/-! ## Failure -/

theorem apply_tryCatch (c : Change α) (f : Error → Change α) :
    (tryCatch c f).apply s =
      match c.apply s with
      | (.ok a, s') => (.ok a, s')
      | (.error e, s') => (f e).apply s' := by
  rcases h : c.apply s with ⟨r, s'⟩
  have h' : StateT.run c s = pure (r, s') := h
  unfold apply
  rw [ExceptT.run_tryCatch]
  show Id.run (StateT.run (c >>= _) s) = _
  rw [StateT.run_bind, h']
  cases r <;> rfl

/-- An atomic change is the change if that succeeds, and else leaves the store as it was. -/
theorem apply_atomic (c : Change α) :
    (atomic c).apply s =
      match c.apply s with
      | (.ok a, s') => (.ok a, s')
      | (.error e, _) => (.error e, s) := by
  unfold atomic
  rw [apply_get_bind, apply_tryCatch]
  rcases c.apply s with ⟨_ | _, s'⟩ <;> rfl

end Change
end ApiCatalog
