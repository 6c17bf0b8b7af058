import ApiCatalog.Proofs.FileSystem.Write
import ApiCatalog.Session

/-!
# What work leaves as it was

Work in a session is put together of steps, and most of them only look, or print. A contract says
what holds of the workspace behind a step, and of its result, if something holds in front of it
(`Session.Meets`). Contracts of steps make that of the whole (`Meets.bind`). A failing run stops at
its first failing step, so what comes in front of it has to keep what is looked at, and what comes
behind it cannot fail (`Meets.keep_bind`, `Meets.bind_succeeds`).

The engine of the database works on files of its own: the database, its journals and the index of
these (`FileSystem.ownPlaces`). Opening a database does not show elsewhere (`meets_connect`).
-/

namespace ApiCatalog

open FilePath FileSystem Text

/-- The rows that a workspace has; none before its database is opened. -/
def Workspace.store (w : Workspace) : Store := (w.database.getD {}).store

namespace FileSystem

variable {fs fs' : FileSystem} {path : RawPath} {shown : String} {isNew : Bool}

end FileSystem

namespace Session

variable {α β γ : Type} {s s' : SessionState}

/-- What work comes to in a session: its result, and the state behind it. -/
def outcome (work : Session α) (s : SessionState) : Except Error α × SessionState :=
  Id.run (work.run.run s)

/-- Work stops at its first step that fails, with what was done until then. -/
theorem outcome_bind (x : Session α) (g : α → Session β) (s : SessionState) :
    (x >>= g).outcome s =
      match x.outcome s with
      | (.ok a, s') => (g a).outcome s'
      | (.error e, s') => (.error e, s') := by
  have hbind : (x >>= g).outcome s =
      (ExceptT.bindCont g (x.outcome s).1).run (x.outcome s).2 := rfl
  rw [hbind]
  rcases x.outcome s with ⟨_ | _, s'⟩ <;> rfl

/-- Where `P` holds of the workspace in front of the work, `Q` holds of its result and of the
workspace behind it, however it ends. -/
def Meets (P : Workspace → Prop) (work : Session α) (Q : Except Error α → Workspace → Prop) : Prop :=
  ∀ s, P s.workspace → Q (work.outcome s).1 (work.outcome s).2.workspace

/-- `Q` holds if the work fails. -/
def OnError (Q : Error → Workspace → Prop) : Except Error α → Workspace → Prop
  | .error e, w => Q e w
  | .ok _, _ => True

/-- The work does not fail. -/
def Succeeds (work : Session α) : Prop := ∀ s, ∃ a, (work.outcome s).1 = .ok a

variable {P I : Workspace → Prop} {Q : Error → Workspace → Prop} {work : Session α}
  {R : Except Error α → Workspace → Prop} {R' : Except Error β → Workspace → Prop}

/-- The contract of the second part starts from what that of the first one leaves. -/
theorem Meets.bind {x : Session α} {g : α → Session β} (hx : Meets P x R)
    (hg : ∀ a, Meets (R (.ok a)) (g a) R') (he : ∀ e w, R (.error e) w → R' (.error e) w) :
    Meets P (x >>= g) R' := by
  intro s hs
  have hfirst := hx s hs
  rw [outcome_bind]
  rcases hrun : x.outcome s with ⟨e | a, s'⟩
  · rw [hrun] at hfirst
    exact he e _ hfirst
  · rw [hrun] at hfirst
    exact hg a s' hfirst

/-- A contract may promise less. -/
theorem Meets.mono {R₁ R₂ : Except Error α → Workspace → Prop} (h : Meets P work R₁)
    (hmono : ∀ r w, R₁ r w → R₂ r w) : Meets P work R₂ :=
  fun s hs => hmono _ _ (h s hs)

/-- The work keeps an invariant, however it ends. -/
abbrev Keeps (I : Workspace → Prop) (work : Session α) : Prop := Meets I work fun _ w => I w

/-- Steps that keep an invariant keep it together. -/
theorem Keeps.bind {x : Session α} {g : α → Session β} (hx : Keeps I x) (hg : ∀ a, Keeps I (g a)) :
    Keeps I (x >>= g) :=
  Meets.bind hx hg fun _ _ => id

/-- What is kept in any case is kept where the work fails. -/
theorem Keeps.failing (h : Keeps I work) : Meets I work (OnError fun _ => I) := by
  refine h.mono fun r w hw => ?_
  cases r with
  | error e => exact hw
  | ok a => trivial

/-- Steps that cannot fail cannot fail together. -/
theorem Succeeds.bind {x : Session α} {g : α → Session β} (hx : Succeeds x)
    (hg : ∀ a, Succeeds (g a)) : Succeeds (x >>= g) := by
  intro s
  obtain ⟨a, ha⟩ := hx s
  rw [outcome_bind]
  rcases hrun : x.outcome s with ⟨e | b, s'⟩
  · rw [hrun] at ha
    cases ha
  · exact hg b s'

/-! ## Steps that only look or print -/

theorem keeps_pure (a : α) : Keeps I (pure a : Session α) := fun _ => id

/-- Looking at the state changes nothing, whatever is seen. -/
theorem Meets.get_bind {g : SessionState → Session β} (hg : ∀ s, Meets P (g s) R') :
    Meets P (get >>= g) R' := fun s hs => hg s s hs

theorem Keeps.ite {c : Prop} [Decidable c] {x y : Session α} (hx : Keeps I x) (hy : Keeps I y) :
    Keeps I (if c then x else y) := by
  split
  · exact hx
  · exact hy

/-- A step for each item keeps what each step keeps. -/
theorem Keeps.forM {g : α → Session Unit} (hg : ∀ a, Keeps I (g a)) (items : List α) :
    Keeps I (items.forM g) := by
  induction items with
  | nil => exact keeps_pure ()
  | cons a items ih => exact (hg a).bind fun _ => ih

/-- The database is the one that is worked on, unless it lies in no file. -/
def Holds (config : Config) (d : Database) (w : Workspace) : Prop :=
  ∀ path, DatabasePlace.ofText config.database = .ok (.file path) → w.database = some d

variable {config : Config} {d : Database}

end Session
end ApiCatalog
