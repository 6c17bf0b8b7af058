import ApiCatalog.Proofs.Store.ImportStep
import ApiCatalog.Proofs.Store.Software
import ApiCatalog.Store.Delete

/-!
# Reachable stores

A store is reachable if calls lead to it from the empty one, whether they succeed or fail. What a
call does to the store is said once, by `Call.Leads`. It comes down to a few kinds of steps
(`Call.steps`): a software or version is added, a version is deleted, one entry is put under an
owner that is there, or one class or interface that is there is linked. What holds of the empty
store and is kept by these steps holds of every reachable store (`Reachable.of_step`).
-/

namespace ApiCatalog

/-! ## Calls -/

/-- A call that may change the store. A class or interface is linked by the record that the store
has of it. -/
inductive Call where
  | addSoftware (name : String) (slug : Option String)
  | addVersion (software : Int) (version : String) (displayName : Option String)
  | deleteVersion (version : Int)
  | reconcile (kind : ElementKind) (entry : kind.Entry) (owner : Int)
  | linkClass (id : Int) (entry : ClassEntry)
  | linkInterface (id : Int) (entry : InterfaceEntry)
  | importInto (version : Int) (document : Document)
  | importDocument (version : Int) (document : Document)

/-- The store behind a call. -/
def Call.run (s : Store) : Call → Store
  | addSoftware name slug => ((Change.addSoftware name slug).apply s).2
  | addVersion software version displayName =>
    ((Change.addVersion software version displayName).apply s).2
  | deleteVersion version => s.deleteVersion version
  | reconcile kind entry owner => ((Change.reconcile kind entry owner).apply s).2
  | linkClass id entry =>
    let change := do
      let r ← Change.getElement .classes id
      Change.linkClass r.id r.row.version entry
    (change.apply s).2
  | linkInterface id entry =>
    let change := do
      let r ← Change.getElement .interfaces id
      Change.linkInterface r.id r.row.version entry
    (change.apply s).2
  | importInto version document => ((Change.importInto version document).apply s).2
  | importDocument version document => ((Change.importDocument version document).apply s).2

/-- The store behind calls, one after the other. -/
def Store.runAll (s : Store) (calls : List Call) : Store := calls.foldl Call.run s

/-- Calls lead to the store. -/
inductive Reachable : Store → Prop
  | empty : Reachable {}
  | call {s : Store} (h : Reachable s) (c : Call) : Reachable (c.run s)

/-- Calls lead from one reachable store to another. -/
theorem Reachable.runAll {s : Store} (h : Reachable s) (calls : List Call) :
    Reachable (s.runAll calls) := by
  induction calls generalizing s with
  | nil => exact h
  | cons c calls ih => exact ih (h.call c)

/-- A store with one software in one version. -/
def Store.oneVersion : Store :=
  Store.runAll {} [.addSoftware "Library" "library", .addVersion 1 "1.0" none]

theorem reachable_oneVersion : Reachable Store.oneVersion := Reachable.empty.runAll _

/-! ## Steps -/

/-- One thing is changed. -/
inductive Step : Store → Store → Prop
  | addSoftware {s : Store} (row : Software) (hslug : row.slug ≠ "")
      (hnew : ∀ r ∈ s.software.records, r.row.name ≠ row.name ∧ r.row.slug ≠ row.slug) :
      Step s { s with software := s.software.add row }
  | addVersion {s : Store} (row : Version) (hsoftware : s.software.has row.software = true)
      (hnew : ∀ r ∈ s.versions.records,
        ¬(r.row.software = row.software ∧ r.row.version = row.version)) :
      Step s { s with versions := s.versions.add row }
  | deleteVersion {s : Store} (version : Int) : Step s (s.deleteVersion version)
  | put {s : Store} (p : Put) (howner : s.hasOwner p.kind.ownerKind p.owner = true) :
      Step s (s.put p)
  | linkClass {s : Store} (r : Record ClassRow) (e : ClassEntry) (hr : r ∈ s.classes.records) :
      Step s (s.linkClass r.id r.row.version e)
  | linkInterface {s : Store} (r : Record ElementRow) (e : InterfaceEntry)
      (hr : r ∈ s.interfaces.records) : Step s (s.linkInterface r.id r.row.version e)

/-- One after the other, steps lead from a store to another. -/
abbrev Steps : Store → Store → Prop := Relation.ReflTransGen Step

/-- A step of an import is a step: what is put has its owner, and what is linked lies in the
version. -/
theorem ImportStep.step {version : Int} {d : Document} {s s' : Store}
    (h : ImportStep version d s s') : Step s s' := by
  cases h with
  | put hp => exact .put _ hp.hasOwner
  | linkClass e id he hid =>
    obtain ⟨row, hrow⟩ := hid
    have hversion : row.version = version := congrArg NaturalKey.owner (Table.key_of_at? hrow)
    have hlink := Step.linkClass ⟨id, row⟩ e (Table.mem_of_at? hrow)
    rw [hversion] at hlink
    exact hlink
  | linkInterface e id he hid =>
    obtain ⟨row, hrow⟩ := hid
    have hversion : row.version = version := congrArg NaturalKey.owner (Table.key_of_at? hrow)
    have hlink := Step.linkInterface ⟨id, row⟩ e (Table.mem_of_at? hrow)
    rw [hversion] at hlink
    exact hlink

/-- An import is a sequence of steps. -/
theorem Steps.withDocument {s : Store} {version : Int} {d : Document}
    (h : s.versions.has version = true) : Steps s (s.withDocument version d) :=
  Relation.ReflTransGen.mono (fun _ _ => ImportStep.step) _ _ (ImportSteps.withDocument h)

/-! ## What calls do -/

/-- From the first store to the second the call did its work, or it found nothing to do and changed
nothing. -/
inductive Call.Leads : Call → Store → Store → Prop
  | unchanged (c : Call) (s : Store) : Leads c s s
  | addSoftware {s : Store} (name : String) (slug : Option String) (row : Software)
      (hslug : row.slug ≠ "")
      (hnew : ∀ r ∈ s.software.records, r.row.name ≠ row.name ∧ r.row.slug ≠ row.slug) :
      Leads (.addSoftware name slug) s { s with software := s.software.add row }
  | addVersion {s : Store} (software : Int) (version : String) (displayName : Option String)
      (row : Version) (hsoftware : s.software.has row.software = true)
      (hnew : ∀ r ∈ s.versions.records,
        ¬(r.row.software = row.software ∧ r.row.version = row.version)) :
      Leads (.addVersion software version displayName) s
        { s with versions := s.versions.add row }
  | deleteVersion {s : Store} (version : Int) :
      Leads (.deleteVersion version) s (s.deleteVersion version)
  | reconcile {s : Store} (kind : ElementKind) (entry : kind.Entry) (owner : Int)
      (howner : s.hasOwner kind.ownerKind owner = true) :
      Leads (.reconcile kind entry owner) s (s.put ⟨kind, entry, owner⟩)
  | linkClass {s : Store} (r : Record ClassRow) (e : ClassEntry) (hr : r ∈ s.classes.records) :
      Leads (.linkClass r.id e) s (s.linkClass r.id r.row.version e)
  | linkInterface {s : Store} (r : Record ElementRow) (e : InterfaceEntry)
      (hr : r ∈ s.interfaces.records) :
      Leads (.linkInterface r.id e) s (s.linkInterface r.id r.row.version e)
  | importInto {s : Store} (version : Int) (d : Document)
      (hversion : s.versions.has version = true) :
      Leads (.importInto version d) s (s.withDocument version d)
  | importDocument {s : Store} (version : Int) (d : Document)
      (hversion : s.versions.has version = true) :
      Leads (.importDocument version d) s (s.withDocument version d)

/-- What a call does is a sequence of steps. -/
theorem Call.Leads.steps {c : Call} {s s' : Store} (h : c.Leads s s') : Steps s s' := by
  cases h with
  | unchanged => exact .refl
  | addSoftware _ _ row hslug hnew => exact .single (.addSoftware row hslug hnew)
  | addVersion _ _ _ row hsoftware hnew => exact .single (.addVersion row hsoftware hnew)
  | deleteVersion version => exact .single (.deleteVersion version)
  | reconcile kind entry owner howner => exact .single (.put ⟨kind, entry, owner⟩ howner)
  | linkClass r e hr => exact .single (.linkClass r e hr)
  | linkInterface r e hr => exact .single (.linkInterface r e hr)
  | importInto _ _ hversion => exact .withDocument hversion
  | importDocument _ _ hversion => exact .withDocument hversion

namespace Call

variable {s : Store}

/-- Adding a software adds a row or leaves the store alone. -/
theorem leads_addSoftware (name : String) (slug : Option String) :
    (addSoftware name slug).Leads s ((addSoftware name slug).run s) := by
  show Leads _ s ((Change.addSoftware name slug).apply s).2
  rw [Change.addSoftware_apply]
  split
  · exact .unchanged _ s
  · next hslug =>
    split
    · exact .unchanged _ s
    · next hnone =>
      rw [Option.not_isSome_iff_eq_none] at hnone
      exact .addSoftware name slug _ hslug (Change.softwareRules_hold _ hnone)

/-- Adding a version does, too. -/
theorem leads_addVersion (software : Int) (version : String) (displayName : Option String) :
    (addVersion software version displayName).Leads s
      ((addVersion software version displayName).run s) := by
  show Leads _ s ((Change.addVersion software version displayName).apply s).2
  rw [Change.addVersion_apply]
  split
  · exact .unchanged _ s
  · next hnone =>
    rw [Option.not_isSome_iff_eq_none] at hnone
    split
    · next hsoftware =>
      exact .addVersion software version displayName _ hsoftware (Change.versionRules_hold _ hnone)
    · exact .unchanged _ s

/-- Reconciling an entry puts it, unless its owner is missing. -/
theorem leads_reconcile (kind : ElementKind) (entry : kind.Entry) (owner : Int) :
    (reconcile kind entry owner).Leads s ((reconcile kind entry owner).run s) := by
  show Leads _ s ((Change.reconcile kind entry owner).apply s).2
  cases h : s.hasOwner kind.ownerKind owner with
  | false =>
    have happly := Change.reconcile_apply_of_missing ⟨kind, entry, owner⟩ h
    rw [happly]
    exact .unchanged _ s
  | true =>
    obtain ⟨row, happly, -⟩ := Change.reconcile_apply ⟨kind, entry, owner⟩ h
    rw [happly]
    exact .reconcile kind entry owner h

/-- Linking a class that is there links it. -/
theorem leads_linkClass (id : Int) (e : ClassEntry) :
    (linkClass id e).Leads s ((linkClass id e).run s) := by
  show Leads _ s (Change.apply (Change.getElement .classes id >>= fun r =>
    Change.linkClass r.id r.row.version e) s).2
  rw [Change.getElement_bind]
  split
  · next row hrow =>
    have hmem := Table.get?_eq_some_iff.1 hrow
    rw [Change.linkClass_apply e (Table.has_iff.2 ⟨_, hmem, rfl⟩)]
    exact .linkClass _ e hmem
  · exact .unchanged _ s

theorem leads_linkInterface (id : Int) (e : InterfaceEntry) :
    (linkInterface id e).Leads s ((linkInterface id e).run s) := by
  show Leads _ s (Change.apply (Change.getElement .interfaces id >>= fun r =>
    Change.linkInterface r.id r.row.version e) s).2
  rw [Change.getElement_bind]
  split
  · next row hrow =>
    have hmem := Table.get?_eq_some_iff.1 hrow
    rw [Change.linkInterface_apply e (Table.has_iff.2 ⟨_, hmem, rfl⟩)]
    exact .linkInterface _ e hmem
  · exact .unchanged _ s

/-- An import runs its steps, or puts nothing. -/
theorem leads_importInto (version : Int) (d : Document) :
    (importInto version d).Leads s ((importInto version d).run s) := by
  show Leads _ s ((Change.importInto version d).apply s).2
  cases h : s.versions.has version with
  | false =>
    rw [Change.importInto_apply_of_missing h]
    exact .unchanged _ s
  | true =>
    rw [Change.importInto_apply h]
    exact .importInto version d h

theorem leads_importDocument (version : Int) (d : Document) :
    (importDocument version d).Leads s ((importDocument version d).run s) := by
  show Leads _ s ((Change.importDocument version d).apply s).2
  cases h : s.versions.has version with
  | false =>
    rw [Change.importDocument_apply_of_missing h, Change.importInto_apply_of_missing h]
    exact .unchanged _ s
  | true =>
    rw [Change.importDocument_apply h]
    exact .importDocument version d h

/-- Running a call does the work of the call or nothing. -/
theorem leads (c : Call) (s : Store) : c.Leads s (c.run s) := by
  cases c with
  | addSoftware name slug => exact leads_addSoftware name slug
  | addVersion software version displayName => exact leads_addVersion software version displayName
  | deleteVersion version => exact .deleteVersion version
  | reconcile kind entry owner => exact leads_reconcile kind entry owner
  | linkClass id entry => exact leads_linkClass id entry
  | linkInterface id entry => exact leads_linkInterface id entry
  | importInto version document => exact leads_importInto version document
  | importDocument version document => exact leads_importDocument version document

/-- Every call is a sequence of steps. -/
theorem steps (c : Call) : Steps s (c.run s) := (c.leads s).steps

end Call

namespace Reachable

variable {P : Store → Prop} {s s' : Store}

/-- What is kept by each step is kept by many. -/
theorem of_steps (hstep : ∀ s s', Step s s' → P s → P s') (h : Steps s s') (hs : P s) : P s' := by
  induction h with
  | refl => exact hs
  | tail _ hlast ih => exact hstep _ _ hlast ih

/-- What holds of the empty store and is kept by each step holds of every reachable store. -/
theorem of_step (hempty : P {}) (hstep : ∀ s s', Step s s' → P s → P s')
    (h : Reachable s) : P s := by
  induction h with
  | empty => exact hempty
  | call _ c ih => exact of_steps hstep c.steps ih

end Reachable

/-! ## Deleting a version -/

namespace Store

/-- Deleting a version is dropping elements, kind by kind, and links. What is kept by both, and is
no matter of the versions, is kept by deleting. -/
theorem deleteVersion_keeps {P : Store → Prop} {s : Store} (version : Int)
    (helements : ∀ s k p, P s → P (dropElements s k p))
    (hlinks : ∀ s classes interfaces, P s → P (dropLinks s classes interfaces))
    (hversions : ∀ (s : Store) versions, P s → P { s with versions }) (hs : P s) :
    P (s.deleteVersion version) := by
  unfold deleteVersion
  refine hversions _ _ (hlinks _ _ _ ?_)
  iterate 7 refine helements _ _ _ ?_
  exact hs

section
variable (s : Store) (k : ElementKind) (p : k.Row → Bool)

/-- Dropping elements takes the picked rows of the kind. -/
theorem dropElements_table : (s.dropElements k p).table k = (s.table k).keep fun r => !p r.row := by
  cases k <;> rfl

theorem dropElements_table_of_ne {l : ElementKind} (h : l ≠ k) :
    (s.dropElements k p).table l = s.table l := by
  rw [← s.table_withTable_of_ne ((s.table k).keep fun r => !p r.row) h]
  cases l <;> rfl

theorem dropElements_deprecations : (s.dropElements k p).deprecations = s.deprecations.keep fun r =>
    !(k.takesDeprecation &&
      (r.row.ownerWord == k.keyword && ((s.table k).idsWhere p).contains r.row.ownerId)) := by
  cases k <;> rfl

theorem dropElements_arguments : (s.dropElements k p).arguments = s.arguments.keep fun r =>
    !(k.takesArguments &&
      (r.row.ownerWord == k.keyword && ((s.table k).idsWhere p).contains r.row.ownerId)) := by
  cases k <;> rfl

end
end Store
end ApiCatalog
