import ApiCatalog.Proofs.Store.Import

/-!
# Imports fail for want of a version only

An import succeeds where its version is there, or where there is nothing to store in it. An error
would end the import, so none came up on the way to a success: each check of a new row looks for what
the lookup before did not find, each member is stored under a class or interface that was stored
before, and each row is read back that was just written. Where the version is missing, the first
entry of the document fails, and the store is as it was.
-/

namespace ApiCatalog

/-- The entries of a document that belong to the version itself, as an import comes to them. -/
def Document.versionPuts (d : Document) (version : Int) : List Put :=
  d.elementPuts version ++ d.otherPuts version

theorem Document.owner_of_mem_versionPuts {d : Document} {version : Int} {p : Put}
    (hp : p ∈ d.versionPuts version) : p.kind.ownerKind = .versions ∧ p.owner = version :=
  (List.mem_append.1 hp).elim owner_of_mem_elementPuts owner_of_mem_otherPuts

/-- A document without classes, interfaces, functions and aliases stores nothing. -/
theorem Document.versionPuts_eq_nil_iff {d : Document} {version : Int} :
    d.versionPuts version = [] ↔
      d.classes = [] ∧ d.interfaces = [] ∧ d.functions = [] ∧ d.aliases = [] := by
  unfold versionPuts elementPuts otherPuts
  rw [List.append_eq_nil_iff, List.append_eq_nil_iff, List.append_eq_nil_iff, List.map_eq_nil_iff,
    List.map_eq_nil_iff, List.map_eq_nil_iff, List.map_eq_nil_iff, and_assoc]

/-- What an import comes to, by the store that it starts from. -/
structure ImportOutcome (version : Int) (d : Document) (s : Store)
    (outcome : Except Error ImportCounts × Store) : Prop where
  /-- It succeeds if the version is there or there is nothing to store. -/
  succeeds : (∃ counts, outcome.1 = .ok counts) ↔ s.versions.has version = true ∨
    d.classes = [] ∧ d.interfaces = [] ∧ d.functions = [] ∧ d.aliases = []
  /-- A success counts the entries of the document. -/
  counts : ∀ counts, outcome.1 = .ok counts → counts = d.counts
  /-- A failure is that of the first entry, which lacks its version, and changes nothing. -/
  failure : ∀ e, outcome.1 = .error e → outcome.2 = s ∧
    ∃ p, (d.versionPuts version).head? = some p ∧
      e = .noOwner p.kind.title (p.kind.entryName p.entry) "versions" version

namespace Change

variable {s : Store} {version : Int} {d : Document}

theorem outcome_importInto : ImportOutcome version d s ((importInto version d).apply s) := by
  cases h : s.versions.has version with
  | true =>
    rw [importInto_apply h]
    exact ⟨by simp [h], fun counts hcounts => (Except.ok.inj hcounts).symm, nofun⟩
  -- Without the version the first row written breaks the reference; if there is none, nothing is.
  | false =>
    rw [importInto_apply_of_missing h, show d.elementPuts version ++ d.otherPuts version =
      d.versionPuts version from rfl]
    cases hputs : d.versionPuts version with
    | nil =>
      have hnone := Document.versionPuts_eq_nil_iff.1 hputs
      exact ⟨by simp [hnone], fun counts hcounts => (Except.ok.inj hcounts).symm, nofun⟩
    | cons p ps =>
      have hsome : ¬(d.classes = [] ∧ d.interfaces = [] ∧ d.functions = [] ∧ d.aliases = []) := by
        intro hnone
        rw [Document.versionPuts_eq_nil_iff.2 hnone] at hputs
        cases hputs
      obtain ⟨hkind, howner⟩ := Document.owner_of_mem_versionPuts
        (hputs ▸ List.mem_cons_self : p ∈ d.versionPuts version)
      refine ⟨by simp [h, hsome], nofun, fun e he => ⟨rfl, p, congrArg List.head? hputs, ?_⟩⟩
      rw [← Except.error.inj he, hkind, howner]
      rfl

/-- Whether an import is atomic makes no difference: the ones that fail have changed nothing. -/
theorem importDocument_apply_eq :
    (importDocument version d).apply s = (importInto version d).apply s := by
  cases h : s.versions.has version with
  | true => rw [importDocument_apply h, importInto_apply h]
  | false => exact importDocument_apply_of_missing h

/-- An import into any version of any store succeeds with the counts of the document, or fails for
want of the version and changes nothing. -/
theorem import_outcome (s : Store) (version : Int) (d : Document) :
    ImportOutcome version d s ((importInto version d).apply s) ∧
      ImportOutcome version d s ((importDocument version d).apply s) := by
  rw [importDocument_apply_eq]
  exact ⟨outcome_importInto, outcome_importInto⟩

end Change
end ApiCatalog
