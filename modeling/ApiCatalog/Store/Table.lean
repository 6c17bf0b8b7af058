/-!
# Tables

A table holds rows under ids, in ascending order of the ids. A new row gets the id behind the
last one that was ever given, so the id of a removed row is never given again.
-/

namespace ApiCatalog

/-- A row with its id. -/
structure Record (α : Type) where
  id : Int
  row : α
deriving DecidableEq, Repr, Inhabited

/-- Rows under ids. -/
structure Table (α : Type) where
  records : List (Record α)
  /-- The last id that was given. -/
  lastId : Int
  ascending : records.Pairwise fun r₁ r₂ => r₁.id < r₂.id
  given : ∀ r ∈ records, r.id ≤ lastId

/-- What no two rows of a table may agree in, and its name. -/
structure Uniqueness (α : Type) where
  name : String
  agree : α → α → Bool

namespace Table

variable {α : Type}

/-- A table without rows that has given no id. -/
def empty : Table α := ⟨[], 0, .nil, by simp⟩

instance : EmptyCollection (Table α) := ⟨empty⟩

instance : Inhabited (Table α) := ⟨empty⟩

/-- Tables with the same rows under the same ids that gave the same last id are equal. -/
@[ext] theorem ext {t u : Table α} (hrecords : t.records = u.records) (hid : t.lastId = u.lastId) :
    t = u := by
  cases t; cases u; cases hrecords; cases hid; rfl

instance [DecidableEq α] : DecidableEq (Table α) := fun t u =>
  if h : t.records = u.records ∧ t.lastId = u.lastId then isTrue (ext h.1 h.2)
  else isFalse fun htu => h (htu ▸ ⟨rfl, rfl⟩)

instance [Repr α] : Repr (Table α) := ⟨fun t n => reprPrec t.records n⟩

/-! ## Reading -/

/-- The rows in order of their ids. -/
def rows (t : Table α) : List α := t.records.map Record.row

/-- The row under an id. -/
def get? (t : Table α) (id : Int) : Option α := (t.records.find? (·.id == id)).map Record.row

/-- There is a row under the id. -/
def has (t : Table α) (id : Int) : Bool := t.records.any (·.id == id)

/-- The record of lowest id whose row satisfies `p`. -/
def find? (t : Table α) (p : α → Bool) : Option (Record α) := t.records.find? fun r => p r.row

/-- The ids of the rows that satisfy `p`. -/
def idsWhere (t : Table α) (p : α → Bool) : List Int :=
  (t.records.filter fun r => p r.row).map Record.id

/-- How many rows satisfy `p`. -/
def count (t : Table α) (p : α → Bool) : Nat := (t.records.filter fun r => p r.row).length

/-- The first rule that `row` would break under `id`, by its name. -/
def broken? (t : Table α) (rules : List (Uniqueness α)) (id : Int) (row : α) : Option String :=
  (rules.find? fun u => t.records.any fun r => r.id != id && u.agree r.row row).map (·.name)

/-! ## Writing -/

/-- The id that the next new row gets. -/
def nextId (t : Table α) : Int := t.lastId + 1

/-- The table with a new row. -/
def add (t : Table α) (row : α) : Table α where
  records := t.records ++ [⟨t.nextId, row⟩]
  lastId := t.nextId
  ascending := by
    refine List.pairwise_append.2 ⟨t.ascending, List.pairwise_singleton _ _, fun r hr r' hr' => ?_⟩
    have := t.given r hr
    simp only [List.mem_singleton] at hr'
    subst hr'
    simp only [nextId]
    omega
  given := by
    intro r hr
    rcases List.mem_append.1 hr with hr | hr
    · have := t.given r hr
      simp only [nextId]
      omega
    · simp only [List.mem_singleton] at hr
      subst hr
      exact Int.le_refl _

/-- The table with every row changed by `f`, which also sees the id. -/
def mapRows (t : Table α) (f : Int → α → α) : Table α where
  records := t.records.map fun r => ⟨r.id, f r.id r.row⟩
  lastId := t.lastId
  ascending := List.pairwise_map.2 t.ascending
  given := by
    intro r hr
    obtain ⟨r', hr', rfl⟩ := List.mem_map.1 hr
    exact t.given r' hr'

/-- The table with the row under `id` changed by `f`. -/
def update (t : Table α) (id : Int) (f : α → α) : Table α :=
  t.mapRows fun i row => if i = id then f row else row

/-- The table without the records that do not satisfy `p`. -/
def keep (t : Table α) (p : Record α → Bool) : Table α where
  records := t.records.filter p
  lastId := t.lastId
  ascending := t.ascending.filter p
  given := fun r hr => t.given r (List.mem_filter.1 hr).1

end Table
end ApiCatalog
