import ApiCatalog.Store.Basic

/-!
# Schema migrations

A database starts without tables. Its migrations make them, one after the other, and each is
applied once.
-/

namespace ApiCatalog

/-- What each migration makes, in order. -/
def migrations : List String :=
  ["Software and versions", "Code elements, members, arguments and deprecations", "Class aliases"]

/-- A database: when each of the migrations it has seen was applied, in order, and what it
keeps. -/
structure Database where
  applied : List String := []
  store : Store := {}
deriving DecidableEq, Repr, Inhabited

/-- A migration with its number, and when it was applied if it was. -/
structure MigrationStatus where
  number : Nat
  description : String
  applied : Option String
deriving DecidableEq, Repr, Inhabited

namespace Database

/-- How many migrations have not been applied. -/
def pending (d : Database) : Nat := migrations.length - d.applied.length

/-- The database with all migrations applied, those that were pending at the time given. -/
def migrate (d : Database) (now : String) : Database :=
  { d with applied := d.applied ++ List.replicate d.pending now }

/-- All migrations in order. -/
def status (d : Database) : List MigrationStatus :=
  (List.range migrations.length).zipWith
    (fun i description => ⟨i + 1, description, d.applied[i]?⟩) migrations

end Database
end ApiCatalog
