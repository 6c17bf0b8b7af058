import ApiCatalog.Proofs.Store.Apply
import ApiCatalog.Store.Software

/-!
# What registering comes to

Registering adds a software that has a slug of its own and a name of its own, and a version that
its software does not have yet; otherwise it changes nothing. The checks on new rows never fail.
-/

namespace ApiCatalog.Change

variable {s : Store}

/-- The slug that a software is registered under. -/
def slugFor (name : String) (slug : Option String) : String :=
  (nonBlank? slug).getD (slugify name)

/-- The version that is registered. -/
def versionFor (software : Int) (version : String) (displayName : Option String) : Version :=
  { software, version, displayName := (nonBlank? displayName).getD version }

/-- A software under a new name and a new slug breaks no rule. -/
theorem softwareRules_hold (row : Software)
    (h : (s.software.find? fun r => r.name == row.name || r.slug == row.slug) = none) :
    ∀ r ∈ s.software.records, r.row.name ≠ row.name ∧ r.row.slug ≠ row.slug := by
  intro r hr
  simpa using List.find?_eq_none.1 h r hr

theorem versionRules_hold (row : Version)
    (h : (s.versions.find? fun r => r.software == row.software && r.version == row.version) = none) :
    ∀ r ∈ s.versions.records,
      ¬(r.row.software = row.software ∧ r.row.version = row.version) := by
  intro r hr
  simpa using List.find?_eq_none.1 h r hr

theorem addSoftware_apply (name : String) (slug : Option String) :
    (addSoftware name slug).apply s =
      if slugFor name slug = "" then (.error (.noSlug name), s)
      else if (s.software.find? fun r => r.name == name || r.slug == slugFor name slug).isSome then
        (.ok none, s)
      else
        (.ok (some ⟨s.software.nextId, ⟨name, slugFor name slug⟩⟩),
          { s with software := s.software.add ⟨name, slugFor name slug⟩ }) := by
  unfold addSoftware
  dsimp only
  rw [show (nonBlank? slug).getD (slugify name) = slugFor name slug from rfl]
  split
  · rfl
  · rw [apply_get_bind]
    split
    · rfl
    · next hnone =>
      rw [Option.not_isSome_iff_eq_none] at hnone
      have hnew := softwareRules_hold ⟨name, slugFor name slug⟩ hnone
      -- The name and the slug have a rule each.
      have hunique : ∀ u ∈ softwareRules, ∀ r ∈ s.software.records,
          u.agree r.row ⟨name, slugFor name slug⟩ = false := by
        intro u hu r hr
        obtain ⟨hname, hslug⟩ := hnew r hr
        rcases List.mem_cons.1 hu with rfl | hu
        · simpa using hname
        · rw [List.mem_singleton.1 hu]
          simpa using hslug
      rw [apply_bind_ok (checkUnique_apply hunique)]
      rfl

theorem addVersion_apply (software : Int) (version : String) (displayName : Option String) :
    (addVersion software version displayName).apply s =
      if (s.versions.find? fun r => r.software == software && r.version == version).isSome then
        (.ok none, s)
      else if s.software.has software = true then
        (.ok (some ⟨s.versions.nextId, versionFor software version displayName⟩),
          { s with versions := s.versions.add (versionFor software version displayName) })
      else (.error (.store .missingReference), s) := by
  unfold addVersion
  rw [apply_get_bind]
  -- The unique rule is the test that was just made, so only the reference can be broken.
  split
  · rfl
  · next hnone =>
    rw [Option.not_isSome_iff_eq_none] at hnone
    have hnew := versionRules_hold (versionFor software version displayName) hnone
    have hunique : ∀ u ∈ versionRules, ∀ r ∈ s.versions.records,
        u.agree r.row (versionFor software version displayName) = false := by
      intro u hu r hr
      rw [List.mem_singleton.1 hu]
      simpa [versionFor] using hnew r hr
    refine (apply_bind_ok (checkUnique_apply hunique) _).trans ?_
    unfold checkReference
    split
    · rfl
    · rfl

end ApiCatalog.Change
