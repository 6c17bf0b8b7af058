import ApiCatalog.Slug
import ApiCatalog.Store.Change
import ApiCatalog.Text.Blank

/-!
# Software and versions

Software is registered under a name and a slug, and versions under a software. What is registered
already is not registered again. Imports never register a version.
-/

namespace ApiCatalog

/-- The text without blanks at its ends, if anything is left. -/
def nonBlank? (s : Option String) : Option String :=
  (s.map fun s => String.ofList (Text.trim s.toList)).filter (· != "")

namespace Change

/-- Registers a software under the slug given, or else under that of its name; nothing if name or
slug is taken. -/
def addSoftware (name : String) (slug : Option String) : Change (Option (Record Software)) := do
  let slug := (nonBlank? slug).getD (slugify name)
  if slug = "" then throw (.noSlug name)
  let s ← get
  if (s.software.find? fun r => r.name == name || r.slug == slug).isSome then return none
  let row : Software := { name, slug }
  checkUnique s.software softwareRules s.software.nextId row
  set { s with software := s.software.add row }
  return some ⟨s.software.nextId, row⟩

/-- Registers a version of a software, displayed under the name given or else as it is; nothing
if the software has the version already. -/
def addVersion (software : Int) (version : String) (displayName : Option String) :
    Change (Option (Record Version)) := do
  let s ← get
  if (s.versions.find? fun r => r.software == software && r.version == version).isSome then
    return none
  let row : Version := { software, version, displayName := (nonBlank? displayName).getD version }
  checkUnique s.versions versionRules s.versions.nextId row
  checkReference (s.software.has software)
  set { s with versions := s.versions.add row }
  return some ⟨s.versions.nextId, row⟩

end Change

namespace Store

/-- The software under a slug. -/
def softwareUnder? (s : Store) (slug : String) : Option (Record Software) :=
  s.software.find? (·.slug == slug)

/-- The software under a slug that must be there. -/
def getSoftware (s : Store) (slug : String) : Except Error (Record Software) :=
  match s.softwareUnder? slug with
  | some r => .ok r
  | none => .error (.noSoftware slug)

/-- All software by name. -/
def softwareByName (s : Store) : List (Record Software) :=
  s.software.records.mergeSort fun a b => a.row.name ≤ b.row.name

/-- The versions of a software. -/
def versionsOf (s : Store) (software : Int) : List (Record Version) :=
  s.versions.records.filter (·.row.software == software)

/-- The version of the software under a slug, which must be there. -/
def getVersion (s : Store) (slug version : String) : Except Error (Record Version) :=
  let isSought (r : Record Version) :=
    r.row.version == version && (s.software.get? r.row.software).any (·.slug == slug)
  match s.versions.records.find? isSought with
  | some r => .ok r
  | none => .error (.noVersion slug version)

end Store
end ApiCatalog
