import ApiCatalog.Proofs.Store.Reachable

/-!
# Keys are unique in reachable stores

No two elements of a kind share a natural key, no element has two deprecations, and none has two
arguments of one name. The checks on new rows are there to ensure it, and they never have to step
in: a row is only added where none of its key is found.
-/

namespace ApiCatalog

namespace Table

variable {α κ : Type} {key : α → κ} {t : Table α}

/-- Where keys are unique, at most one record has a given one. -/
theorem HasUniqueKeys.count_le_one (h : HasUniqueKeys key t) {p : α → Bool} {c : κ}
    (hp : ∀ row, p row = true → key row = c) : t.count p ≤ 1 := by
  have hsame : ∀ r ∈ t.records.filter (fun r => p r.row),
      ∀ r' ∈ t.records.filter (fun r => p r.row), r = r' := by
    intro r hr r' hr'
    obtain ⟨hmem, hrow⟩ := List.mem_filter.1 hr
    obtain ⟨hmem', hrow'⟩ := List.mem_filter.1 hr'
    exact h r hmem r' hmem' ((hp _ hrow).trans (hp _ hrow').symm)
  -- Two records would be the same one, and yet have ids in ascending order.
  have hascending := t.ascending.filter (fun r => p r.row)
  unfold count
  generalize t.records.filter (fun r => p r.row) = rs at hsame hascending ⊢
  match rs with
  | [] => exact Nat.zero_le 1
  | [_] => exact Nat.le_refl 1
  | r :: r' :: rest =>
    have hlt : r.id < r'.id := (List.pairwise_cons.1 hascending).1 r' List.mem_cons_self
    have heq : r = r' := hsame r (by simp) r' (by simp)
    rw [heq] at hlt
    omega

end Table

/-- No two rows share the key of their table. -/
structure Store.HasUniqueKeys (s : Store) : Prop where
  elements : ∀ k, Table.HasUniqueKeys k.key (s.table k)
  deprecations : Table.HasUniqueKeys DeprecationRow.key s.deprecations
  arguments : Table.HasUniqueKeys ArgumentRow.key s.arguments

namespace Store.HasUniqueKeys

variable {s s' : Store}

theorem empty : HasUniqueKeys {} where
  elements k := by cases k <;> exact Table.HasUniqueKeys.empty
  deprecations := Table.HasUniqueKeys.empty
  arguments := Table.HasUniqueKeys.empty

/-- The keys are a matter of the elements, deprecations and arguments alone. -/
theorem congr (h : s.HasUniqueKeys) (htable : ∀ k, s'.table k = s.table k)
    (hdeprecations : s'.deprecations = s.deprecations) (harguments : s'.arguments = s.arguments) :
    s'.HasUniqueKeys where
  elements k := by rw [htable]; exact h.elements k
  deprecations := by rw [hdeprecations]; exact h.deprecations
  arguments := by rw [harguments]; exact h.arguments

theorem withDeprecation {t : Table DeprecationRow}
    (h : Table.HasUniqueKeys DeprecationRow.key t) (o : Owner) (d : Docblock) :
    Table.HasUniqueKeys DeprecationRow.key (withDeprecation o d t) := by
  unfold ApiCatalog.withDeprecation
  split
  · exact h.keep _
  · exact h.write _

theorem withArguments {t : Table ArgumentRow} (h : Table.HasUniqueKeys ArgumentRow.key t)
    (o : Owner) (arguments : List ArgumentEntry) (d : Docblock) :
    Table.HasUniqueKeys ArgumentRow.key (withArguments o arguments d t) :=
  (h.writeAll _).keep _

theorem put (h : s.HasUniqueKeys) (p : Put) : (s.put p).HasUniqueKeys where
  elements k := by
    by_cases hkind : k = p.kind
    · subst hkind
      rw [put_table]
      exact (h.elements _).write _
    · rw [put_table_of_ne s p hkind]
      exact h.elements k
  deprecations := by
    rw [put_deprecations]
    split
    · exact withDeprecation h.deprecations _ _
    · exact h.deprecations
  arguments := by
    rw [put_arguments]
    split
    · exact withArguments h.arguments _ _ _
    · exact h.arguments

theorem withClasses (h : s.HasUniqueKeys) {f : Int → ClassRow → ClassRow}
    (hf : ∀ id row, ElementKind.classes.key (f id row) = ElementKind.classes.key row) :
    { s with classes := s.classes.mapRows f }.HasUniqueKeys where
  elements k := by
    cases k with
    | classes => exact Table.HasUniqueKeys.mapRows (h.elements .classes) fun r _ => hf r.id r.row
    | interfaces => exact h.elements .interfaces
    | classMethods => exact h.elements .classMethods
    | interfaceMethods => exact h.elements .interfaceMethods
    | classProperties => exact h.elements .classProperties
    | functions => exact h.elements .functions
    | aliases => exact h.elements .aliases
  deprecations := h.deprecations
  arguments := h.arguments

theorem dropElements (h : s.HasUniqueKeys) (k : ElementKind) (p : k.Row → Bool) :
    (s.dropElements k p).HasUniqueKeys where
  elements l := by
    by_cases hkind : l = k
    · subst hkind
      rw [dropElements_table]
      exact (h.elements _).keep _
    · rw [dropElements_table_of_ne s k p hkind]
      exact h.elements l
  deprecations := by rw [dropElements_deprecations]; exact h.deprecations.keep _
  arguments := by rw [dropElements_arguments]; exact h.arguments.keep _

theorem dropLinks (h : s.HasUniqueKeys) (classes interfaces : List Int) :
    (s.dropLinks classes interfaces).HasUniqueKeys :=
  (h.withClasses (f := fun _ row => row.extending (row.parent.filter fun id => !classes.contains id))
    fun _ _ => rfl).congr (fun k => by cases k <;> rfl) rfl rfl

/-- Each step keeps keys unique. -/
theorem step (hstep : Step s s') (h : s.HasUniqueKeys) : s'.HasUniqueKeys := by
  cases hstep with
  | addSoftware row hslug hnew => exact h.congr (fun k => by cases k <;> rfl) rfl rfl
  | addVersion row hsoftware hnew => exact h.congr (fun k => by cases k <;> rfl) rfl rfl
  | deleteVersion version =>
    refine deleteVersion_keeps version (fun s k p h => h.dropElements k p)
      (fun s cs is h => h.dropLinks cs is) (fun s versions h => ?_) h
    exact h.congr (fun k => by cases k <;> rfl) rfl rfl
  | put p howner => exact h.put p
  | linkClass r e hr =>
    -- Only the parent of the linked class changes, which is no part of the key.
    let extend (id : Int) (row : ClassRow) :=
      if id = r.id then row.extending (s.parentOf? r.id r.row.version e) else row
    have hextend : ∀ id row,
        ElementKind.classes.key (extend id row) = ElementKind.classes.key row := by
      intro id row
      unfold extend
      split <;> rfl
    exact (h.withClasses hextend).congr (fun k => by cases k <;> rfl) rfl rfl
  | linkInterface r e hr => exact h.congr (fun k => by cases k <;> rfl) rfl rfl

end Store.HasUniqueKeys

/-- Keys are unique in every reachable store. -/
theorem Reachable.hasUniqueKeys {s : Store} (h : Reachable s) : s.HasUniqueKeys :=
  h.of_step .empty fun _ _ => Store.HasUniqueKeys.step

theorem Reachable.withDocument {s : Store} (h : Reachable s) {version : Int}
    (hversion : s.versions.has version = true) {d : Document} :
    Reachable (s.withDocument version d) := by
  have hrun : (Call.importInto version d).run s = s.withDocument version d := by
    show ((Change.importInto version d).apply s).2 = _
    rw [Change.importInto_apply hversion]
  rw [← hrun]
  exact h.call (.importInto version d)

theorem Reachable.hasUniqueKeys_withDocument {s : Store} (h : Reachable s) {version : Int}
    (hversion : s.versions.has version = true) {d : Document} :
    (s.withDocument version d).HasUniqueKeys :=
  (h.withDocument hversion).hasUniqueKeys

end ApiCatalog
