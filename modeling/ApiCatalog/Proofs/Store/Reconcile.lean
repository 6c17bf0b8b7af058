import ApiCatalog.Proofs.Store.Put
import ApiCatalog.Store.Import

/-!
# Reconciling is putting

Each part of `Change.reconcile` is worked out on a store: the checks of new rows never fail, since
a row is only new where the lookup of its key found none. Together they come to `Store.put`.
-/

namespace ApiCatalog
namespace Change

variable {s : Store}

/-! ## New rows -/

/-- Where no row has the key of a new one, the check of the rule on keys lets it pass. -/
theorem checkUnique_apply_of_key {α κ : Type} [BEq κ] [LawfulBEq κ] {t : Table α} {key : α → κ}
    {rule : Uniqueness α} {id : Int} {row : α}
    (hrule : ∀ a b, rule.agree a b = true → key a = key b) (h : t.at? key (key row) = none) :
    (checkUnique t [rule] id row).apply s = (.ok (), s) := by
  refine checkUnique_apply fun u hu r hr => ?_
  have hne : key r.row ≠ key row := Table.at?_eq_none_iff.1 h r hr
  rw [List.mem_singleton.1 hu, Bool.eq_false_iff]
  exact fun hagree => hne (hrule _ _ hagree)

theorem addDeprecation_apply {row : DeprecationRow}
    (h : s.deprecations.at? DeprecationRow.key row.key = none) :
    (addDeprecation row).apply s =
      (.ok (), { s with deprecations := s.deprecations.add row }) := by
  unfold addDeprecation
  rw [apply_get_bind, deprecationRules, apply_bind_ok (checkUnique_apply_of_key (fun a b hagree =>
    eq_of_beq (a := a.key) (b := b.key) hagree) h)]
  rfl

theorem addArgument_apply {row : ArgumentRow}
    (h : s.arguments.at? ArgumentRow.key row.key = none) :
    (addArgument row).apply s = (.ok (), { s with arguments := s.arguments.add row }) := by
  unfold addArgument
  rw [apply_get_bind, argumentRules, apply_bind_ok (checkUnique_apply_of_key (fun a b hagree =>
    eq_of_beq (a := a.key) (b := b.key) hagree) h)]
  rfl

theorem addElement_apply {k : ElementKind} {row : k.Row}
    (hkey : (s.table k).at? k.key (k.key row) = none)
    (howner : s.hasOwner k.ownerKind (k.key row).owner = true) :
    (addElement k row).apply s =
      (.ok (s.table k).nextId, s.withTable k ((s.table k).add row)) := by
  unfold addElement
  rw [apply_get_bind, ElementKind.rules,
    apply_bind_ok (checkUnique_apply_of_key (fun _ _ => eq_of_beq) hkey),
    apply_bind_ok (checkReference_apply howner)]
  rfl

/-! ## Deprecations and arguments -/

theorem syncDeprecation_apply (o : Owner) (d : Docblock) :
    (syncDeprecation o d).apply s =
      (.ok (), { s with deprecations := withDeprecation o d s.deprecations }) := by
  unfold syncDeprecation withDeprecation
  rw [apply_get_bind]
  cases d.lastNamed? "deprecated" with
  | none => rfl
  | some tag =>
    -- The row is looked up by the key that it is written under.
    have hfind : s.deprecations.find? (·.isOf o) =
        s.deprecations.at? DeprecationRow.key o.key := rfl
    dsimp only
    rw [hfind]
    cases hat : s.deprecations.at? DeprecationRow.key o.key with
    | none =>
      rw [Table.write_of_at?_none (w := deprecationWrite o tag) hat]
      exact addDeprecation_apply hat
    | some r =>
      rw [Table.write_of_at? (w := deprecationWrite o tag) hat]
      rfl

theorem syncArgument_apply (o : Owner) (d : Docblock) (a : ArgumentEntry) :
    (syncArgument o d a).apply s =
      (.ok (), { s with arguments := s.arguments.write (argumentWrite o d a) }) := by
  have hfind : s.arguments.find? (fun r => r.isOf o && r.name == a.name) =
      s.arguments.at? ArgumentRow.key (o.key, a.name) := rfl
  unfold syncArgument
  rw [apply_get_bind]
  dsimp only
  rw [hfind]
  cases hat : s.arguments.at? ArgumentRow.key (o.key, a.name) with
  | none =>
    rw [Table.write_of_at?_none (w := argumentWrite o d a) hat]
    exact addArgument_apply hat
  | some r =>
    rw [Table.write_of_at? (w := argumentWrite o d a) hat]
    rfl

theorem forM_syncArgument_apply (o : Owner) (d : Docblock) (arguments : List ArgumentEntry) :
    (arguments.forM (syncArgument o d)).apply s =
      (.ok (), { s with
        arguments := s.arguments.writeAll (arguments.map (argumentWrite o d)) }) := by
  induction arguments generalizing s with
  | nil => rfl
  | cons a arguments ih =>
    show (syncArgument o d a >>= fun _ => arguments.forM (syncArgument o d)).apply s = _
    rw [apply_bind_ok (syncArgument_apply o d a), ih]
    rfl

theorem syncArguments_apply (o : Owner) (arguments : List ArgumentEntry) (d : Docblock) :
    (syncArguments o arguments d).apply s =
      (.ok (), { s with arguments := withArguments o arguments d s.arguments }) := by
  unfold syncArguments
  rw [apply_bind_ok (forM_syncArgument_apply o d arguments)]
  rfl

/-! ## Elements -/

theorem requireOwner_apply (p : Put) (h : s.hasOwner p.kind.ownerKind p.owner = true) :
    (requireOwner p.kind p.entry p.owner).apply s = (.ok (), s) := by
  unfold requireOwner
  rw [apply_get_bind]
  simp [h]

theorem owner_entryKey (k : ElementKind) (e : k.Entry) (owner : Int) :
    (k.entryKey e owner).owner = owner := by
  cases k <;> rfl

theorem syncRow_apply (p : Put) (h : s.hasOwner p.kind.ownerKind p.owner = true) :
    (syncRow p.kind p.entry p.owner).apply s =
      (.ok (s.idOf p), s.withTable p.kind ((s.table p.kind).write p.write)) := by
  unfold syncRow Store.idOf Table.idAt
  rw [apply_get_bind]
  have hfind :
      (s.table p.kind).find? (fun row => p.kind.key row == p.kind.entryKey p.entry p.owner) =
        (s.table p.kind).at? p.kind.key p.key := rfl
  rw [hfind]
  cases hat : (s.table p.kind).at? p.kind.key p.key with
  | none =>
    rw [Table.write_of_at?_none (w := p.write) hat]
    refine addElement_apply hat ?_
    -- The new row refers to the owner that was asked for.
    rw [← h]
    exact congrArg _ (owner_entryKey p.kind p.entry p.owner)
  | some r =>
    rw [Table.write_of_at? (w := p.write) hat]
    rfl

/-- Reconciling an entry whose owner is there puts it, and gives the record of its key. -/
theorem reconcile_apply (p : Put) (h : s.hasOwner p.kind.ownerKind p.owner = true) :
    ∃ row, (reconcile p.kind p.entry p.owner).apply s = (.ok ⟨s.idOf p, row⟩, s.put p) ∧
      ((s.put p).table p.kind).at? p.kind.key p.key = some ⟨s.idOf p, row⟩ := by
  obtain ⟨row, hrow⟩ := Put.Stored.put_self (p := p) (s := s)
  have hmem : ((s.put p).table p.kind).get? (s.idOf p) = some row :=
    Table.get?_eq_some_iff.2 (Table.mem_of_at? hrow)
  refine ⟨row, ?_, hrow⟩
  unfold reconcile
  rw [apply_bind_ok (requireOwner_apply p h), apply_bind_ok (syncRow_apply p h)]
  dsimp only
  rw [apply_when (syncDeprecation_apply _ _), apply_when (syncArguments_apply _ _ _)]
  -- The record is read back from the store that all parts together come to.
  have hput : (getElement p.kind (s.idOf p)).apply (s.put p) =
      (.ok ⟨s.idOf p, row⟩, s.put p) := by
    unfold getElement
    rw [apply_get_bind, hmem]
    rfl
  rw [← hput]
  congr 1
  obtain ⟨k, e, owner⟩ := p
  cases k <;> rfl

/-- Where the owner is missing, reconciling fails and leaves the store as it was. -/
theorem reconcile_apply_of_missing (p : Put) (h : s.hasOwner p.kind.ownerKind p.owner = false) :
    (reconcile p.kind p.entry p.owner).apply s =
      (.error (.noOwner p.kind.title (p.kind.entryName p.entry) p.kind.ownerKind.tableName p.owner),
        s) := by
  have hrequire : (requireOwner p.kind p.entry p.owner).apply s =
      (.error (.noOwner p.kind.title (p.kind.entryName p.entry) p.kind.ownerKind.tableName p.owner),
        s) := by
    unfold requireOwner
    rw [apply_get_bind]
    simp [h]
  exact apply_bind_error hrequire _

/-! ## Many entries -/

/-- Reconciling entries of one kind under one owner puts them, and gives their records in order. -/
theorem reconcileAll_apply {k : ElementKind} {owner : Int} (es : List k.Entry)
    (h : s.hasOwner k.ownerKind owner = true) :
    ∃ rs, (reconcileAll k es owner).apply s = (.ok rs, s.putAll (es.map (Put.mk k · owner))) ∧
      rs.map Prod.snd = es ∧
      ∀ r ∈ rs, Put.Stored ⟨k, r.2, owner⟩ (s.putAll (es.map (Put.mk k · owner))) r.1.id ∧
        k.key r.1.row = k.entryKey r.2 owner := by
  -- An entry keeps its id while the others are put, so its record is right in the end.
  induction es generalizing s with
  | nil => exact ⟨[], rfl, rfl, by simp⟩
  | cons e es ih =>
    obtain ⟨row, hrow, hat⟩ := reconcile_apply ⟨k, e, owner⟩ h
    obtain ⟨rs, hrs, hsnd, hstored⟩ := ih (s.hasOwner_put ⟨k, e, owner⟩ h)
    refine ⟨(⟨s.idOf ⟨k, e, owner⟩, row⟩, e) :: rs, ?_, by rw [List.map_cons, hsnd], ?_⟩
    · unfold reconcileAll at hrs ⊢
      rw [List.mapM_cons, bind_assoc, apply_bind_ok hrow, pure_bind, apply_bind_ok hrs]
      rfl
    · intro r hr
      rcases List.mem_cons.1 hr with rfl | hr
      · exact ⟨Put.Stored.put_self.putAll _, Table.key_of_at? hat⟩
      · exact hstored r hr

/-- Where the owner is missing, the first entry fails, and the store stays as it was. -/
theorem reconcileAll_apply_of_missing {k : ElementKind} {owner : Int} (e : k.Entry)
    (es : List k.Entry) (h : s.hasOwner k.ownerKind owner = false) :
    (reconcileAll k (e :: es) owner).apply s =
      (.error (.noOwner k.title (k.entryName e) k.ownerKind.tableName owner), s) := by
  unfold reconcileAll
  rw [List.mapM_cons, bind_assoc]
  exact apply_bind_error (reconcile_apply_of_missing ⟨k, e, owner⟩ h) _

end Change
end ApiCatalog
