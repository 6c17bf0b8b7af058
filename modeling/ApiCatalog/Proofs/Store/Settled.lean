import ApiCatalog.Proofs.Store.Import

/-!
# Settled entries

An entry is settled where its row, its deprecation and its arguments are as it says, so that
putting it again would change nothing. Putting an entry settles it, and what is put in other places
keeps it settled: of all entries that are put in one place, the last one is settled in the end
(`Store.settled_putAll`).
-/

namespace ApiCatalog

/-! ## Deprecations -/

/-- The deprecation of an element is as its docblock says. -/
def DeprecationSettled (o : Owner) (d : Docblock) (t : Table DeprecationRow) : Prop :=
  match d.lastNamed? "deprecated" with
  | none => ∀ r ∈ t.records, r.row.key ≠ o.key
  | some tag => ∃ id, (deprecationWrite o tag).Settled t id

namespace DeprecationSettled

variable {o o' : Owner} {d d' : Docblock} {t : Table DeprecationRow}

theorem withDeprecation_self : DeprecationSettled o d (withDeprecation o d t) := by
  unfold DeprecationSettled withDeprecation
  cases d.lastNamed? "deprecated" with
  | none =>
    intro r hr hkey
    have hkept := (Table.mem_keep.1 hr).2
    rw [DeprecationRow.isOf_iff.2 hkey] at hkept
    cases hkept
  | some tag => exact ⟨_, Write.Settled.write_self⟩

theorem withDeprecation_eq_self (h : DeprecationSettled o d t) : withDeprecation o d t = t := by
  unfold DeprecationSettled at h
  unfold withDeprecation
  cases htag : d.lastNamed? "deprecated" with
  | none =>
    rw [htag] at h
    refine Table.keep_eq_self fun r hr => ?_
    rw [Bool.not_eq_true', ← Bool.not_eq_true, DeprecationRow.isOf_iff]
    exact h r hr
  | some tag =>
    rw [htag] at h
    obtain ⟨id, hid⟩ := h
    exact hid.write_eq_self

/-- The deprecation of another element is another one. -/
theorem withDeprecation_of_ne (h : DeprecationSettled o d t) (hne : o' ≠ o) :
    DeprecationSettled o d (withDeprecation o' d' t) := by
  have hkey : o'.key ≠ o.key := fun hkey => hne (Owner.key_inj hkey)
  unfold DeprecationSettled at h ⊢
  cases htag : d.lastNamed? "deprecated" with
  | none =>
    rw [htag] at h
    intro r hr
    rcases mem_withDeprecation hr with hr | hr
    · rw [hr]
      exact hkey
    · exact h r hr
  | some tag =>
    rw [htag] at h
    obtain ⟨id, hid⟩ := h
    refine ⟨id, ?_⟩
    -- The other deprecation may go or be written; both leave this row alone.
    unfold withDeprecation
    split
    · refine hid.keep fun r _ hr => ?_
      rw [Bool.not_eq_true', ← Bool.not_eq_true, DeprecationRow.isOf_iff, hr]
      exact hkey.symm
    · exact hid.write_of_ne hkey

end DeprecationSettled

/-! ## Arguments -/

/-- The arguments of an element are as declared and documented; of arguments of one name the last
one counts. -/
structure ArgumentsSettled (o : Owner) (arguments : List ArgumentEntry) (d : Docblock)
    (t : Table ArgumentRow) : Prop where
  settled : ∀ name a, lastWith? ArgumentEntry.name name arguments = some a →
    ∃ id, (argumentWrite o d a).Settled t id
  declared : ∀ r ∈ t.records, r.row.key.1 = o.key → r.row.name ∈ arguments.map (·.name)

namespace ArgumentsSettled

variable {o o' : Owner} {d d' : Docblock} {arguments arguments' : List ArgumentEntry}
  {t : Table ArgumentRow}

/-- The last argument of a name is the one whose write comes last. -/
theorem lastWith?_argumentWrite (o : Owner) (d : Docblock) (arguments : List ArgumentEntry)
    (name : String) :
    lastWith? Write.target (o.key, name) (arguments.map (argumentWrite o d)) =
      (lastWith? ArgumentEntry.name name arguments).map (argumentWrite o d) := by
  rw [lastWith?_map]
  refine congrArg _ (lastWith?_congr fun a _ => ?_)
  simp [argumentWrite]

theorem withArguments_self : ArgumentsSettled o arguments d (withArguments o arguments d t) where
  settled name a ha := by
    have hlast := lastWith?_argumentWrite o d arguments name
    rw [ha, Option.map_some] at hlast
    obtain ⟨id, hid⟩ := Table.settled_writeAll (t := t) hlast
    -- Only arguments that are not declared are dropped, and this one is.
    refine ⟨id, hid.keep fun r _ hr => ?_⟩
    have hname : r.row.name = a.name := congrArg Prod.snd hr
    have hmem : r.row.name ∈ arguments.map (·.name) :=
      hname ▸ List.mem_map_of_mem (mem_of_lastWith? ha)
    rw [List.contains_iff_mem.2 hmem]
    simp
  declared r hr hkey := by
    have hkept := (Table.mem_keep.1 hr).2
    rw [ArgumentRow.isOf_iff.2 hkey] at hkept
    simpa using hkept

theorem withArguments_eq_self (h : ArgumentsSettled o arguments d t) :
    withArguments o arguments d t = t := by
  -- Each write finds the row as it would leave it.
  have hwrite : t.writeAll (arguments.map (argumentWrite o d)) = t := by
    refine Table.writeAll_eq_self (fun w hw => ?_) fun w hw w' hw' _ row => ?_
    · obtain ⟨a, -, rfl⟩ := List.mem_map.1 (mem_of_lastWith? hw)
      have hlast := (lastWith?_argumentWrite o d arguments a.name).symm.trans hw
      obtain ⟨a', ha', heq⟩ := Option.map_eq_some_iff.1 hlast
      rw [← heq]
      exact h.settled a.name a' ha'
    · -- Two writes of one argument set the same fields.
      obtain ⟨a, -, rfl⟩ := List.mem_map.1 hw
      obtain ⟨a', -, rfl⟩ := List.mem_map.1 hw'
      rfl
  unfold withArguments
  rw [hwrite]
  refine Table.keep_eq_self fun r hr => ?_
  -- A row of the owner is declared and kept; any other row is none of its business.
  by_cases hkey : r.row.key.1 = o.key
  · rw [List.contains_iff_mem.2 (h.declared r hr hkey)]
    simp
  · rw [← ArgumentRow.isOf_iff, Bool.not_eq_true] at hkey
    rw [hkey]
    rfl

/-- The arguments of another element are other ones. -/
theorem withArguments_of_ne (h : ArgumentsSettled o arguments d t) (hne : o' ≠ o) :
    ArgumentsSettled o arguments d (withArguments o' arguments' d' t) where
  settled name a ha := by
    have hkey : o'.key ≠ o.key := fun hkey => hne (Owner.key_inj hkey)
    obtain ⟨id, hid⟩ := h.settled name a ha
    -- Neither the writes nor the clearing touch rows of this element.
    have hwrites : (argumentWrite o d a).Settled
        (t.writeAll (arguments'.map (argumentWrite o' d'))) id := by
      refine hid.writeAll_of_ne fun w hw htarget => ?_
      obtain ⟨a', -, rfl⟩ := List.mem_map.1 hw
      exact hkey (congrArg Prod.fst htarget)
    refine ⟨id, hwrites.keep fun r _ hr => ?_⟩
    have hother : r.row.isOf o' = false := by
      rw [← Bool.not_eq_true, ArgumentRow.isOf_iff, hr]
      exact hkey.symm
    rw [hother]
    rfl
  declared r hr hkey := by
    rcases mem_withArguments hr with hr | hr
    · exact absurd (Owner.key_inj (hr.symm.trans hkey)) hne
    · exact h.declared r hr hkey

end ArgumentsSettled

/-! ## Entries -/

/-- Where an entry is put. -/
def Put.place (p : Put) : ElementKind × NaturalKey := (p.kind, p.key)

/-- All that the store has of an entry is as it says. -/
structure Put.Settled (p : Put) (s : Store) (id : Int) : Prop where
  row : p.write.Settled (s.table p.kind) id
  deprecation : p.kind.takesDeprecation = true →
    DeprecationSettled ⟨p.kind, id⟩ p.docblock s.deprecations
  arguments : p.kind.takesArguments = true →
    ArgumentsSettled ⟨p.kind, id⟩ p.arguments p.docblock s.arguments

namespace Put.Settled

variable {p q : Put} {s s' : Store} {id : Int}

theorem stored (h : p.Settled s id) : p.Stored s id := by
  obtain ⟨row, hrow, -⟩ := h.row
  exact ⟨row, hrow⟩

theorem put_self : p.Settled (s.put p) (s.idOf p) where
  row := by
    rw [Store.put_table]
    exact Write.Settled.write_self
  deprecation htakes := by
    rw [Store.put_deprecations, if_pos htakes]
    exact .withDeprecation_self
  arguments htakes := by
    rw [Store.put_arguments, if_pos htakes]
    exact .withArguments_self

/-- Putting a settled entry changes nothing. -/
theorem put_eq_self (h : p.Settled s id) : s.put p = s := by
  have hdeprecations : (s.put p).deprecations = s.deprecations := by
    rw [Store.put_deprecations, h.stored.idOf_eq]
    split
    · next htakes => exact (h.deprecation htakes).withDeprecation_eq_self
    · rfl
  have harguments : (s.put p).arguments = s.arguments := by
    rw [Store.put_arguments, h.stored.idOf_eq]
    split
    · next htakes => exact (h.arguments htakes).withArguments_eq_self
    · rfl
  -- What is left are the tables of elements; putting leaves all the rest alone.
  refine Store.ext_table (fun k => ?_) hdeprecations harguments (s.put_software p)
    (s.put_versions p) (s.put_interfaceParents p) (s.put_classInterfaces p)
  by_cases hkind : k = p.kind
  · subst hkind
    rw [Store.put_table, h.row.write_eq_self]
  · exact s.put_table_of_ne p hkind

/-- Nothing that is put in another place gets the id of an entry. -/
theorem owner_ne (h : p.Stored s id) (hne : q.place ≠ p.place) :
    (⟨q.kind, s.idOf q⟩ : Owner) ≠ ⟨p.kind, id⟩ := by
  obtain ⟨k, e, owner⟩ := p
  obtain ⟨l, e', owner'⟩ := q
  obtain ⟨row, hrow⟩ := h
  -- The id that `q` gets is that of a row of its own key, or a new one.
  intro howner
  obtain ⟨rfl, hid⟩ := Owner.mk.injEq .. ▸ howner
  refine Table.idAt_ne (Table.mem_of_at? hrow) (fun hkey => hne ?_) hid
  exact Prod.ext rfl (hkey.symm.trans (Table.key_of_at? hrow))

/-- What is put in another place keeps an entry settled. -/
theorem put_of_ne (h : p.Settled s id) (hne : q.place ≠ p.place) : p.Settled (s.put q) id where
  row := by
    obtain ⟨k, e, owner⟩ := p
    by_cases hkind : k = q.kind
    · subst hkind
      rw [Store.put_table]
      exact h.row.write_of_ne fun hkey => hne (Prod.ext rfl hkey)
    · rw [Store.put_table_of_ne s q hkind]
      exact h.row
  deprecation htakes := by
    rw [Store.put_deprecations]
    split
    · exact (h.deprecation htakes).withDeprecation_of_ne (owner_ne h.stored hne)
    · exact h.deprecation htakes
  arguments htakes := by
    rw [Store.put_arguments]
    split
    · exact (h.arguments htakes).withArguments_of_ne (owner_ne h.stored hne)
    · exact h.arguments htakes

theorem putAll_of_ne (h : p.Settled s id) {qs : List Put} (hne : ∀ q ∈ qs, q.place ≠ p.place) :
    p.Settled (s.putAll qs) id := by
  induction qs generalizing s with
  | nil => exact h
  | cons q qs ih =>
    refine ih (h.put_of_ne (hne q List.mem_cons_self)) fun q' hq' => ?_
    exact hne q' (List.mem_cons_of_mem _ hq')

end Put.Settled

namespace Store

variable {s : Store} {ps : List Put} {p : Put}

/-- Of the entries put in one place, the last one is settled in the end. -/
theorem settled_putAll {c : ElementKind × NaturalKey} (h : lastWith? Put.place c ps = some p) :
    p.Settled (s.putAll ps) ((s.putAll ps).idOf p) := by
  obtain rfl := key_of_lastWith? h
  have hsettled : ∃ id, p.Settled (s.putAll ps) id := by
    refine foldl_of_lastWith? (P := fun s => ∃ id, p.Settled s id) h (fun s => ?_)
      (fun s q hne => ?_) s
    · exact ⟨_, Put.Settled.put_self⟩
    · rintro ⟨id, hid⟩
      exact ⟨id, hid.put_of_ne hne⟩
  obtain ⟨id, hid⟩ := hsettled
  exact hid.stored.idOf_eq ▸ hid

/-- Putting settled entries changes nothing. -/
theorem putAll_eq_self (h : ∀ p ∈ ps, ∃ id, p.Settled s id) : s.putAll ps = s := by
  induction ps with
  | nil => rfl
  | cons p ps ih =>
    obtain ⟨id, hp⟩ := h p List.mem_cons_self
    show (s.put p).putAll ps = s
    rw [hp.put_eq_self]
    exact ih fun q hq => h q (List.mem_cons_of_mem _ hq)

end Store
end ApiCatalog
