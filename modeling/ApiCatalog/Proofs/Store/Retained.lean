import ApiCatalog.Proofs.Store.Reimport
import ApiCatalog.Proofs.Store.Unique
import Mathlib.Data.List.Nodup

/-!
# What an import keeps of an earlier one

Where a document declares an element more than once, each of its entries is stored in turn, and each
drops the deprecation and the arguments that it does not have itself. What the last entry has and an
earlier one has not is thus dropped and made anew in every import, under another id. If no entry
drops what the last one of its key has (`Document.Retains`), a second import finds it all in place:
deprecations and arguments keep their ids, and no others are left behind.

Both tables hold rows that hang on elements, and the argument is the same for both: `Attached` says
what it needs of them. A second import is followed step by step (`Attached.Kept`). The row of a key
keeps its id, as whatever is put drops nothing of the last entry, and in the end it is as the last
entry says, as it was before.
-/

namespace ApiCatalog

/-! ## Rows of a table by their keys -/

namespace Table

variable {α κ : Type} [BEq κ] [LawfulBEq κ] {key : α → κ} {t u : Table α}

/-- Tables that have the same record under every key have the same records. -/
theorem HasUniqueKeys.records_eq (ht : HasUniqueKeys key t) (hu : HasUniqueKeys key u)
    (h : ∀ c, t.at? key c = u.at? key c) : t.records = u.records := by
  have hmem : ∀ r, r ∈ t.records ↔ r ∈ u.records := by
    intro r
    have ht' := ht.at?_eq_some_iff (c := key r.row) (r := r)
    have hu' := hu.at?_eq_some_iff (c := key r.row) (r := r)
    rw [h] at ht'
    simpa using ht'.symm.trans hu'
  -- Records stand in the order of their ids, so the same ones make the same list.
  have hnodup : ∀ v : Table α, v.records.Nodup := fun v => List.Nodup.of_map _ v.nodup_ids
  have hperm := (List.perm_ext_iff_of_nodup (hnodup t) (hnodup u)).2 hmem
  refine hperm.eq_of_pairwise (fun q r _ _ hqr hrq => ?_) t.ascending u.ascending
  omega

end Table

/-! ## Entries that drop nothing -/

/-- The entry says that its element is deprecated. -/
def ElementKind.IsDeprecated (k : ElementKind) (e : k.Entry) : Prop :=
  ((k.docblock e).lastNamed? "deprecated").isSome = true

/-- To store the entry drops nothing of what the other entry has: it is deprecated if that one is,
and it declares all the arguments that are declared there. -/
structure ElementKind.Retains (k : ElementKind) (e last : k.Entry) : Prop where
  deprecation : k.IsDeprecated last → k.IsDeprecated e
  arguments : ∀ a ∈ k.arguments last, a.name ∈ (k.arguments e).map (·.name)

instance (k : ElementKind) (e last : k.Entry) : Decidable (k.Retains e last) :=
  have : ∀ e, Decidable (k.IsDeprecated e) := fun _ => inferInstanceAs (Decidable (_ = true))
  decidable_of_iff ((k.IsDeprecated last → k.IsDeprecated e) ∧
      ∀ a ∈ k.arguments last, a.name ∈ (k.arguments e).map (·.name))
    ⟨fun ⟨hdeprecation, harguments⟩ => ⟨hdeprecation, harguments⟩,
      fun h => ⟨h.deprecation, h.arguments⟩⟩

/-- No entry drops what the last one of its key has. -/
structure Document.Retains (d : Document) : Prop where
  classes : ∀ e ∈ d.classes, ∀ last ∈ lastWith? ClassEntry.key e.key d.classes,
    ElementKind.classes.Retains e last
  interfaces : ∀ e ∈ d.interfaces, ∀ last ∈ lastWith? InterfaceEntry.key e.key d.interfaces,
    ElementKind.interfaces.Retains e last
  functions : ∀ e ∈ d.functions, ∀ last ∈ lastWith? FunctionEntry.key e.key d.functions,
    ElementKind.functions.Retains e last
  methods : ∀ e ∈ d.classes, ∀ m ∈ e.methods,
    ∀ last ∈ lastWith? MethodEntry.name m.name (d.classMethods e.key),
      ElementKind.classMethods.Retains m last
  properties : ∀ e ∈ d.classes, ∀ m ∈ e.properties,
    ∀ last ∈ lastWith? PropertyEntry.name m.name (d.classProperties e.key),
      ElementKind.classProperties.Retains m last
  interfaceMethods : ∀ e ∈ d.interfaces, ∀ m ∈ e.methods,
    ∀ last ∈ lastWith? MethodEntry.name m.name (d.interfaceMethods e.key),
      ElementKind.interfaceMethods.Retains m last

/-! ## Tables whose rows hang on elements -/

/-- The rows of the table hang on elements, by a part of their keys, and are brought in step with
them: `has` says that the entry has the row of a key. -/
structure Attached {α κ : Type} [BEq κ] (table : Store → Table α) (key : α → κ)
    (takes : ElementKind → Bool) (element : κ → String × Int)
    (has : (k : ElementKind) → k.Entry → κ → Prop) : Prop where
  linkClass : ∀ s id version e, table (Store.linkClass s id version e) = table s
  linkInterface : ∀ s id version e, table (Store.linkInterface s id version e) = table s
  /-- An entry leaves the rows of other elements alone. -/
  put_of_ne : ∀ {s : Store} {p : Put} {c : κ},
    ¬(takes p.kind = true ∧ element c = Owner.key ⟨p.kind, s.idOf p⟩) →
      (table (s.put p)).at? key c = (table s).at? key c
  /-- What an entry has keeps its id. -/
  put_of_has : ∀ {s : Store} {p : Put} {c : κ} {r : Record α}, has p.kind p.entry c →
    (table s).at? key c = some r → ∃ row, (table (s.put p)).at? key c = some ⟨r.id, row⟩
  /-- Where an entry is settled, its element has what the entry has. -/
  has_of_settled : ∀ {s : Store} {p : Put} {id : Int} {c : κ} {r : Record α}, p.Settled s id →
    takes p.kind = true → element c = Owner.key ⟨p.kind, id⟩ → (table s).at? key c = some r →
      has p.kind p.entry c
  /-- Wherever an entry is settled, its element has the same rows. -/
  rows_of_settled : ∀ {s s' : Store} {p : Put} {id : Int} {c : κ}, p.Settled s id →
    p.Settled s' id → takes p.kind = true → element c = Owner.key ⟨p.kind, id⟩ →
      ((table s).at? key c).map Record.row = ((table s').at? key c).map Record.row
  /-- An entry that drops nothing of another one has what that one has. -/
  has_of_retains : ∀ {k : ElementKind} {e last : k.Entry} {c : κ}, k.Retains e last →
    has k last c → has k e c

/-! ## Deprecations -/

section
variable {o : Owner} {d : Docblock} {t : Table DeprecationRow} {c : String × Int}

theorem at?_withDeprecation_of_ne (h : c ≠ o.key) :
    (withDeprecation o d t).at? DeprecationRow.key c = t.at? DeprecationRow.key c := by
  unfold withDeprecation
  split
  · refine Table.at?_keep fun r _ hr => ?_
    rw [Bool.not_eq_true', ← Bool.not_eq_true, DeprecationRow.isOf_iff, hr]
    exact h
  · exact Table.at?_write_of_ne h.symm

/-- A renewed deprecation is the one that would be made. -/
theorem deprecationWrite_renew {tag : Tag} {row : DeprecationRow} (h : row.key = o.key) :
    (deprecationWrite o tag).renew row = (deprecationWrite o tag).fresh := by
  obtain ⟨hword, hid⟩ := Prod.mk.injEq .. ▸ h
  show DeprecationRow.mk tag.description tag.version row.ownerId row.ownerWord = _
  rw [hword, hid]
  rfl

/-- Wherever the deprecation of an element is settled, it is the same. -/
theorem DeprecationSettled.row_eq (h : DeprecationSettled o d t) :
    (t.at? DeprecationRow.key o.key).map Record.row =
      (d.lastNamed? "deprecated").map fun tag => (deprecationWrite o tag).fresh := by
  unfold DeprecationSettled at h
  cases htag : d.lastNamed? "deprecated" with
  | none =>
    rw [htag] at h
    rw [Table.at?_eq_none_iff.2 h]
    rfl
  | some tag =>
    rw [htag] at h
    obtain ⟨id, hid⟩ := h
    exact hid.row_eq fun _ => deprecationWrite_renew

end

theorem attached_deprecations : Attached Store.deprecations DeprecationRow.key
    ElementKind.takesDeprecation id fun k e _ => k.IsDeprecated e where
  linkClass _ _ _ _ := rfl
  linkInterface _ _ _ _ := rfl
  put_of_ne {s p c} h := by
    rw [Store.put_deprecations]
    split
    · next htakes => exact at?_withDeprecation_of_ne fun hc => h ⟨htakes, hc⟩
    · rfl
  put_of_has {s p c r} h hr := by
    obtain ⟨tag, htag⟩ := Option.isSome_iff_exists.1 h
    rw [Store.put_deprecations]
    split
    · unfold withDeprecation Put.docblock
      rw [htag]
      exact Table.idAt_write hr
    · exact ⟨r.row, hr⟩
  has_of_settled {s p id c r} h htakes hc hr := by
    obtain rfl : c = Owner.key ⟨p.kind, id⟩ := hc
    have hrow := (h.deprecation htakes).row_eq
    rw [show s.deprecations.at? _ _ = _ from hr] at hrow
    obtain ⟨tag, htag, -⟩ := Option.map_eq_some_iff.1 hrow.symm
    exact Option.isSome_iff_exists.2 ⟨tag, htag⟩
  rows_of_settled {s s' p i c} h h' htakes hc := by
    obtain rfl : c = Owner.key ⟨p.kind, i⟩ := hc
    exact (h.deprecation htakes).row_eq.trans (h'.deprecation htakes).row_eq.symm
  has_of_retains h := h.deprecation

/-! ## Arguments -/

section
variable {o : Owner} {d : Docblock} {arguments : List ArgumentEntry} {t : Table ArgumentRow}
  {c : (String × Int) × String}

theorem at?_withArguments_of_ne (h : c.1 ≠ o.key) :
    (withArguments o arguments d t).at? ArgumentRow.key c = t.at? ArgumentRow.key c := by
  have hwrites : (t.writeAll (arguments.map (argumentWrite o d))).at? ArgumentRow.key c =
      t.at? ArgumentRow.key c := by
    refine Table.at?_writeAll_of_ne fun w hw htarget => h ?_
    obtain ⟨a, -, rfl⟩ := List.mem_map.1 hw
    exact (congrArg Prod.fst htarget).symm
  unfold withArguments
  rw [← hwrites]
  refine Table.at?_keep fun r _ hr => ?_
  have hother : r.row.isOf o = false := by
    rw [← Bool.not_eq_true, ArgumentRow.isOf_iff, hr]
    exact h
  rw [hother]
  rfl

/-- An argument that is declared keeps its id. -/
theorem idAt_withArguments {r : Record ArgumentRow} (h : c.2 ∈ arguments.map (·.name))
    (hr : t.at? ArgumentRow.key c = some r) :
    ∃ row, (withArguments o arguments d t).at? ArgumentRow.key c = some ⟨r.id, row⟩ := by
  obtain ⟨row, hrow⟩ := Table.idAt_writeAll (arguments.map (argumentWrite o d)) hr
  refine ⟨row, (Table.at?_keep fun q _ hq => ?_).trans hrow⟩
  have hname : q.row.name = c.2 := congrArg Prod.snd hq
  rw [List.contains_iff_mem.2 (hname ▸ h)]
  simp

/-- A renewed argument is the one that would be made. -/
theorem argumentWrite_renew {a : ArgumentEntry} {row : ArgumentRow}
    (h : row.key = (o.key, a.name)) :
    (argumentWrite o d a).renew row = (argumentWrite o d a).fresh := by
  obtain ⟨howner, hname⟩ := Prod.mk.injEq .. ▸ h
  obtain ⟨hword, hid⟩ := Prod.mk.injEq .. ▸ howner
  show ArgumentRow.mk row.name (argumentInfo a d).2 (TextList.write (argumentInfo a d).1) a.default
    row.ownerId row.ownerWord = _
  rw [hname, hword, hid]
  rfl

/-- Wherever the arguments of an element are settled, it has the same ones. -/
theorem ArgumentsSettled.row_eq {name : String} (h : ArgumentsSettled o arguments d t) :
    (t.at? ArgumentRow.key (o.key, name)).map Record.row =
      (lastWith? ArgumentEntry.name name arguments).map fun a => (argumentWrite o d a).fresh := by
  cases ha : lastWith? ArgumentEntry.name name arguments with
  | none =>
    have hnone : t.at? ArgumentRow.key (o.key, name) = none := by
      refine Table.at?_eq_none_iff.2 fun r hr hkey => ?_
      have hmem := h.declared r hr (congrArg Prod.fst hkey)
      obtain ⟨a, ha', hname⟩ := List.mem_map.1 hmem
      have hname' : r.row.name = name := congrArg Prod.snd hkey
      exact lastWith?_eq_none_iff.1 ha a ha' (hname.trans hname')
    rw [hnone]
    rfl
  | some a =>
    obtain ⟨id, hid⟩ := h.settled name a ha
    obtain rfl := key_of_lastWith? ha
    exact hid.row_eq fun _ => argumentWrite_renew

end

theorem attached_arguments : Attached Store.arguments ArgumentRow.key ElementKind.takesArguments
    Prod.fst fun k e c => c.2 ∈ (k.arguments e).map (·.name) where
  linkClass _ _ _ _ := rfl
  linkInterface _ _ _ _ := rfl
  put_of_ne {s p c} h := by
    rw [Store.put_arguments]
    split
    · next htakes => exact at?_withArguments_of_ne fun hc => h ⟨htakes, hc⟩
    · rfl
  put_of_has {s p c r} h hr := by
    rw [Store.put_arguments]
    split
    · exact idAt_withArguments h hr
    · exact ⟨r.row, hr⟩
  has_of_settled {s p id c r} h htakes hc hr := by
    have hkey := Table.key_of_at? hr
    have hmem := (h.arguments htakes).declared r (Table.mem_of_at? hr)
      ((congrArg Prod.fst hkey).trans hc)
    rwa [show r.row.name = c.2 from congrArg Prod.snd hkey] at hmem
  rows_of_settled {s s' p i c} h h' htakes hc := by
    obtain ⟨_, name⟩ := c
    obtain rfl := hc
    exact (h.arguments htakes).row_eq.trans (h'.arguments htakes).row_eq.symm
  has_of_retains h hc := by
    obtain ⟨a, ha, hname⟩ := List.mem_map.1 hc
    exact hname ▸ h.arguments a ha

/-! ## A second import -/

section
variable {s t : Store} {version : Int} {d : Document} {q : Put} {id : Int}

/-- Behind a first and behind a second import an entry of the place of `q` is settled, in the same
row, and `q` drops nothing of what it has. -/
def Put.RetainsLast (q : Put) (s : Store) (version : Int) (d : Document) : Prop :=
  ∃ (last : q.kind.Entry) (id : Int), q.kind.Retains q.entry last ∧
    Put.place ⟨q.kind, last, q.owner⟩ = q.place ∧
    Put.Settled ⟨q.kind, last, q.owner⟩ (s.withDocument version d) id ∧
    Put.Settled ⟨q.kind, last, q.owner⟩ ((s.withDocument version d).withDocument version d) id

variable (hversion : s.versions.has version = true)
include hversion

theorem ImportSteps.again : ImportSteps version d (s.withDocument version d)
    ((s.withDocument version d).withDocument version d) :=
  ImportSteps.withDocument (Store.holds_withDocument (d := d) hversion).hasVersion

/-- The last entry of a key is the one of the place, if that is a matter of the key, and behind both
imports its row is the same. -/
theorem Put.RetainsLast.of_last {κ : Type} [BEq κ] [LawfulBEq κ] {k : ElementKind} {e : k.Entry}
    {owner : Int} {key : k.Entry → κ} {es : List k.Entry} (he : e ∈ es)
    (hplace : ∀ e', key e' = key e → Put.place ⟨k, e', owner⟩ = Put.place ⟨k, e, owner⟩)
    (hretains : ∀ last ∈ lastWith? key (key e) es, k.Retains e last)
    (hsettled : ∀ last, lastWith? key (key e) es = some last → ∃ id id',
      Put.Settled ⟨k, last, owner⟩ (s.withDocument version d) id ∧
        Put.Settled ⟨k, last, owner⟩ ((s.withDocument version d).withDocument version d) id') :
    Put.RetainsLast ⟨k, e, owner⟩ s version d := by
  obtain ⟨last, hlast⟩ : ∃ last, lastWith? key (key e) es = some last := exists_lastWith? he
  obtain ⟨id, id', h, h'⟩ := hsettled last hlast
  have hstored := (ImportSteps.again hversion).stored h.stored
  have hid : id' = id := h'.stored.idOf_eq.symm.trans hstored.idOf_eq
  exact ⟨last, id, hretains last hlast, hplace last (key_of_lastWith? hlast), h, hid ▸ h'⟩

omit hversion in
/-- What the first import stored has its id in the course of a second one. -/
theorem Put.Stored.idOf_again {p : Put}
    (hp : p.Stored (s.withDocument version d) ((s.withElements version d).idOf p))
    (ht : ImportSteps version d (s.withDocument version d) t) (hid : p.Stored t id) :
    (s.withElements version d).idOf p = id ∧
      ((s.withDocument version d).withElements version d).idOf p = id := by
  have hfirst : (s.withElements version d).idOf p = id :=
    (ht.stored hp).idOf_eq.symm.trans hid.idOf_eq
  exact ⟨hfirst, (hp.putAll (d.elementPuts version)).idOf_eq.trans hfirst⟩

/-- Whatever a second import puts drops nothing of what the last entry of its place has. -/
theorem Store.Puts.retainsLast (hd : d.Retains)
    (ht : ImportSteps version d (s.withDocument version d) t) (h : t.Puts version d q) :
    q.RetainsLast s version d := by
  cases h with
  | element _ hq =>
    unfold Document.elementPuts Document.otherPuts at hq
    simp only [List.mem_append, List.mem_map] at hq
    rcases hq with (⟨e, he, rfl⟩ | ⟨e, he, rfl⟩) | ⟨e, he, rfl⟩ | ⟨e, he, rfl⟩
    · exact .of_last hversion he (fun _ h => Prod.ext rfl (naturalKey_eq_iff.2 h))
        (hd.classes e he) fun _ h => ⟨_, _, settled_class h, settled_class h⟩
    · exact .of_last hversion he (fun _ h => Prod.ext rfl (naturalKey_eq_iff.2 h))
        (hd.interfaces e he) fun _ h => ⟨_, _, settled_interface h, settled_interface h⟩
    · exact .of_last hversion he (fun _ h => Prod.ext rfl (naturalKey_eq_iff.2 h))
        (hd.functions e he) fun _ h => ⟨_, _, settled_function h, settled_function h⟩
    · -- Nothing hangs on aliases.
      exact .of_last hversion he (fun _ h => Prod.ext rfl (naturalKey_eq_iff.2 h))
        (fun _ _ => ⟨nofun, nofun⟩) fun _ h => ⟨_, _, settled_alias h, settled_alias h⟩
  | @classMember e id he hid hq =>
    -- The members hang on the row that the class had behind the first import.
    obtain ⟨hfirst, hsecond⟩ : (s.withElements version d).classId version e = id ∧
        ((s.withDocument version d).withElements version d).classId version e = id :=
      ((Store.holds_withDocument hversion).classes e he).idOf_again ht hid
    have hentry : e ∈ d.classes.filter (·.key == e.key) :=
      List.mem_filter.2 ⟨he, beq_self_eq_true e.key⟩
    rcases List.mem_append.1 hq with hq | hq
    · obtain ⟨m, hm, rfl⟩ := List.mem_map.1 hq
      refine .of_last hversion (List.mem_flatMap.2 ⟨e, hentry, hm⟩)
        (fun _ h => Prod.ext rfl (congrArg (NaturalKey.mk id "") h)) (hd.methods e he m hm) ?_
      exact fun _ h => ⟨_, _, hfirst ▸ settled_classMethod he m.name h,
        hsecond ▸ settled_classMethod he m.name h⟩
    · obtain ⟨m, hm, rfl⟩ := List.mem_map.1 hq
      refine .of_last hversion (List.mem_flatMap.2 ⟨e, hentry, hm⟩)
        (fun _ h => Prod.ext rfl (congrArg (NaturalKey.mk id "") h)) (hd.properties e he m hm) ?_
      exact fun _ h => ⟨_, _, hfirst ▸ settled_classProperty he m.name h,
        hsecond ▸ settled_classProperty he m.name h⟩
  | @interfaceMember e id he hid hq =>
    obtain ⟨hfirst, hsecond⟩ : (s.withElements version d).interfaceId version e = id ∧
        ((s.withDocument version d).withElements version d).interfaceId version e = id :=
      ((Store.holds_withDocument hversion).interfaces e he).idOf_again ht hid
    have hentry : e ∈ d.interfaces.filter (·.key == e.key) :=
      List.mem_filter.2 ⟨he, beq_self_eq_true e.key⟩
    obtain ⟨m, hm, rfl⟩ := List.mem_map.1 hq
    refine .of_last hversion (List.mem_flatMap.2 ⟨e, hentry, hm⟩)
      (fun _ h => Prod.ext rfl (congrArg (NaturalKey.mk id "") h)) (hd.interfaceMethods e he m hm)
      ?_
    exact fun _ h => ⟨_, _, hfirst ▸ settled_interfaceMethod he m.name h,
      hsecond ▸ settled_interfaceMethod he m.name h⟩

/-! ## Step by step -/

section
variable {α κ : Type} [BEq κ] {table : Store → Table α} {key : α → κ}
  {takes : ElementKind → Bool} {element : κ → String × Int}
  {has : (k : ElementKind) → k.Entry → κ → Prop}

/-- In the course of a second import the row of a key keeps its id. It stays as it is until an entry
is put to its element, and then the last entry of that is settled behind both imports. -/
structure Attached.Kept (_ : Attached table key takes element has) (s : Store) (version : Int)
    (d : Document) (c : κ) (t : Store) : Prop where
  id : ∀ r, (table (s.withDocument version d)).at? key c = some r →
    ∃ row, (table t).at? key c = some ⟨r.id, row⟩
  row : (table t).at? key c = (table (s.withDocument version d)).at? key c ∨
    ∃ (p : Put) (id : Int), takes p.kind = true ∧ element c = Owner.key ⟨p.kind, id⟩ ∧
      p.Settled (s.withDocument version d) id ∧
        p.Settled ((s.withDocument version d).withDocument version d) id

namespace Attached

variable (h : Attached table key takes element has) (hd : d.Retains)
include h hd

theorem kept_put {c : κ} (ht : ImportSteps version d (s.withDocument version d) t)
    (hq : t.Puts version d q) (hkept : h.Kept s version d c t) :
    h.Kept s version d c (t.put q) := by
  by_cases htouched : takes q.kind = true ∧ element c = Owner.key ⟨q.kind, t.idOf q⟩
  · obtain ⟨htakes, helement⟩ := htouched
    obtain ⟨last, id, hretains, hplace, hsettled, hsettled'⟩ := hq.retainsLast hversion hd ht
    -- The last entry of the place is stored in the row that `q` is put into.
    have hstored := ht.stored hsettled.stored
    have hid : t.idOf q = id :=
      (congrArg (t.table q.kind |>.idAt q.kind.key) (congrArg Prod.snd hplace)).symm.trans
        hstored.idOf_eq
    rw [hid] at helement
    refine ⟨fun r hr => ?_,
      .inr ⟨⟨q.kind, last, q.owner⟩, id, htakes, helement, hsettled, hsettled'⟩⟩
    obtain ⟨row, hrow⟩ := hkept.id r hr
    have hlast := h.has_of_settled hsettled htakes helement hr
    exact h.put_of_has (r := ⟨r.id, row⟩) (h.has_of_retains hretains hlast) hrow
  · have hsame := h.put_of_ne htouched
    refine ⟨fun r hr => ?_, ?_⟩
    · rw [hsame]
      exact hkept.id r hr
    · rw [hsame]
      exact hkept.row

theorem kept {c : κ} (ht : ImportSteps version d (s.withDocument version d) t) :
    h.Kept s version d c t := by
  induction ht with
  | refl => exact ⟨fun r hr => ⟨r.row, hr⟩, .inl rfl⟩
  | @tail t _ ht hstep ih =>
    cases hstep with
    | put hq => exact h.kept_put hversion hd ht hq ih
    | linkClass e id _ _ =>
      have hsame := h.linkClass t id version e
      exact ⟨hsame ▸ ih.id, hsame ▸ ih.row⟩
    | linkInterface e id _ _ =>
      have hsame := h.linkInterface t id version e
      exact ⟨hsame ▸ ih.id, hsame ▸ ih.row⟩

/-- A second import leaves the row of every key as it is. -/
theorem at?_eq (c : κ) :
    (table ((s.withDocument version d).withDocument version d)).at? key c =
      (table (s.withDocument version d)).at? key c := by
  obtain ⟨hid, hrow⟩ := h.kept hversion hd (c := c) (ImportSteps.again hversion)
  rcases hrow with hsame | ⟨p, id, htakes, helement, hsettled, hsettled'⟩
  · exact hsame
  · have hrows := h.rows_of_settled hsettled' hsettled htakes helement
    cases hr : (table (s.withDocument version d)).at? key c with
    | none =>
      rw [hr] at hrows
      exact Option.map_eq_none_iff.1 hrows
    | some r =>
      obtain ⟨row, hrow⟩ := hid r hr
      rw [hrow, hr] at hrows
      have hsame : row = r.row := Option.some_inj.1 hrows
      rw [hrow, hsame]

end Attached
end
end

/-! ## Repeated imports -/

/-- Where no entry of the document drops what the last one of its key has, a second import of the
document succeeds as the first one does, and leaves the deprecations and the arguments as they are,
under their ids. -/
theorem Reachable.import_again {s : Store} (h : Reachable s) {version : Int}
    (hversion : s.versions.has version = true) {d : Document} (hd : d.Retains) :
    ∃ s' s'', (Change.importDocument version d).apply s = (.ok d.counts, s') ∧
      (Change.importDocument version d).apply s' = (.ok d.counts, s'') ∧
        s''.deprecations.records = s'.deprecations.records ∧
          s''.arguments.records = s'.arguments.records := by
  have hagain := (Store.holds_withDocument (d := d) hversion).hasVersion
  have hkeys := h.hasUniqueKeys_withDocument hversion (d := d)
  have hkeys' := (h.withDocument hversion).hasUniqueKeys_withDocument hagain (d := d)
  refine ⟨_, _, Change.importDocument_apply hversion, Change.importDocument_apply hagain, ?_, ?_⟩
  · exact hkeys'.deprecations.records_eq hkeys.deprecations
      (attached_deprecations.at?_eq hversion hd)
  · exact hkeys'.arguments.records_eq hkeys.arguments (attached_arguments.at?_eq hversion hd)

/-- A document with a function and a class that are declared twice, as under a condition. Both
entries of the function are deprecated and take the argument. -/
def Document.polyfills : Document where
  files := Dictionary.ofList [("polyfills.php",
    { functions := [
        { name := "load", ns := "global", arguments := [{ name := "path" }, { name := "mode" }]
          docblock := { tags := [{ name := "deprecated", description := "Too slow." }] } },
        { name := "load", ns := "global", arguments := [{ name := "path", type := "string" }]
          docblock := { tags := [{ name := "deprecated", description := "Old." }] } }]
      classes := [
        { name := "Clock", ns := "Time", methods := [{ name := "now" }] },
        { name := "Clock", ns := "Time"
          methods := [{ name := "now" }, { name := "set", arguments := [{ name := "to" }] }] }] })]

theorem Reachable.import_again_polyfills :
    ∃ s' s'', (Change.importDocument 1 .polyfills).apply .oneVersion =
        (.ok Document.polyfills.counts, s') ∧
      (Change.importDocument 1 .polyfills).apply s' = (.ok Document.polyfills.counts, s'') ∧
        s''.deprecations.records = s'.deprecations.records ∧
          s''.arguments.records = s'.arguments.records := by
  have hd : Document.polyfills.Retains :=
    ⟨by decide +kernel, by decide +kernel, by decide +kernel, by decide +kernel, by decide +kernel,
      by decide +kernel⟩
  exact reachable_oneVersion.import_again (by decide +kernel) hd

/-- A document with a function that is declared twice. Only the second entry is deprecated, and the
entries take different arguments. -/
def Document.loads : Document where
  files := Dictionary.ofList [("a.php",
    { functions := [
        { name := "load", ns := "global", arguments := [{ name := "path" }] },
        { name := "load", ns := "global", arguments := [{ name := "file" }]
          docblock := { tags := [
            { name := "deprecated", description := "Old.", version := some "1.0" }] } }] })]

/-- The deprecation and the argument of the second entry are made anew in a second import. -/
theorem load_made_anew :
    let s' := Store.oneVersion.runAll [.importDocument 1 .loads]
    let s'' := s'.runAll [.importDocument 1 .loads]
    s'.deprecations.records.map Record.id = [1] ∧ s''.deprecations.records.map Record.id = [2] ∧
      s'.arguments.records.map (fun r => (r.id, r.row.name)) = [(2, "file")] ∧
        s''.arguments.records.map (fun r => (r.id, r.row.name)) = [(4, "file")] := by
  decide +kernel

end ApiCatalog
