import ApiCatalog.Store.Table

/-!
# Tables by key

A table knows its rows by id; what imports look rows up by is a key, some part of the row. This
file says how the operations on tables act on the records of a key:

* `at?`, the record of lowest id with a key, and `HasUniqueKeys`, which makes it the only one;
* what becomes of `at?` when rows are added, changed or dropped.

Everything later in the theory reads tables through these lemmas.
-/

namespace ApiCatalog
namespace Table

variable {α κ : Type}

/-! ## Records -/

/-- No two records of a table have one id. -/
theorem nodup_ids (t : Table α) : (t.records.map Record.id).Nodup := by
  refine List.pairwise_map.2 (t.ascending.imp fun hlt heq => ?_)
  omega

/-- An id is that of one record. -/
theorem eq_of_id_eq {t : Table α} {r r' : Record α} (hr : r ∈ t.records) (hr' : r' ∈ t.records)
    (h : r.id = r'.id) : r = r' := by
  obtain ⟨i, hi, rfl⟩ := List.mem_iff_getElem.1 hr
  obtain ⟨j, hj, rfl⟩ := List.mem_iff_getElem.1 hr'
  -- Ids ascend, so records in different positions have different ids.
  have hlt := List.pairwise_iff_getElem.1 t.ascending
  rcases Nat.lt_trichotomy i j with hij | hij | hij
  · have := hlt i j hi hj hij
    omega
  · subst hij
    rfl
  · have := hlt j i hj hi hij
    omega

/-- The next id is a new one. -/
theorem id_ne_nextId {t : Table α} {r : Record α} (h : r ∈ t.records) : r.id ≠ t.nextId := by
  have := t.given r h
  unfold nextId
  omega

@[simp] theorem has_iff {t : Table α} {id : Int} : t.has id = true ↔ ∃ r ∈ t.records, r.id = id := by
  simp [has]

@[simp] theorem get?_eq_some_iff {t : Table α} {id : Int} {row : α} :
    t.get? id = some row ↔ ⟨id, row⟩ ∈ t.records := by
  unfold get?
  constructor
  · intro h
    obtain ⟨r, hr, rfl⟩ := Option.map_eq_some_iff.1 h
    have hid : r.id = id := by simpa using List.find?_some hr
    subst hid
    exact List.mem_of_find?_eq_some hr
  · intro h
    -- The search succeeds, and what it finds has the id and so is the record.
    cases hf : t.records.find? (·.id == id) with
    | none =>
      have := List.find?_eq_none.1 hf _ h
      simp at this
    | some r =>
      have hid : r.id = id := by simpa using List.find?_some hf
      have : r = ⟨id, row⟩ := eq_of_id_eq (List.mem_of_find?_eq_some hf) h hid
      simp [this]

/-- A row that is added comes to those that were there. -/
@[simp] theorem mem_add {t : Table α} {row : α} {r : Record α} :
    r ∈ (t.add row).records ↔ r ∈ t.records ∨ r = ⟨t.nextId, row⟩ := by
  simp [add]

@[simp] theorem mem_mapRows {t : Table α} {f : Int → α → α} {r : Record α} :
    r ∈ (t.mapRows f).records ↔ ∃ r' ∈ t.records, ⟨r'.id, f r'.id r'.row⟩ = r := by
  simp [mapRows]

@[simp] theorem mem_keep {t : Table α} {p : Record α → Bool} {r : Record α} :
    r ∈ (t.keep p).records ↔ r ∈ t.records ∧ p r = true := by
  simp [keep]

/-- Changed rows keep their ids. -/
@[simp] theorem has_mapRows {t : Table α} {f : Int → α → α} {id : Int} :
    (t.mapRows f).has id = t.has id := by
  unfold has mapRows
  rw [List.any_map]
  rfl

/-- A row that is added takes no id away. -/
theorem has_add {t : Table α} {row : α} {id : Int} (h : t.has id = true) :
    (t.add row).has id = true := by
  obtain ⟨r, hr, rfl⟩ := has_iff.1 h
  exact has_iff.2 ⟨r, mem_add.2 (.inl hr), rfl⟩

/-- A change that changes no row changes nothing. -/
theorem mapRows_eq_self {t : Table α} {f : Int → α → α}
    (h : ∀ r ∈ t.records, f r.id r.row = r.row) : t.mapRows f = t := by
  refine ext ?_ rfl
  refine (List.map_congr_left fun r hr => ?_).trans (List.map_id _)
  rw [h r hr]
  rfl

/-- Keeping everything changes nothing. -/
theorem keep_eq_self {t : Table α} {p : Record α → Bool} (h : ∀ r ∈ t.records, p r = true) :
    t.keep p = t :=
  ext (List.filter_eq_self.2 h) rfl

theorem mapRows_mapRows (t : Table α) (f g : Int → α → α) :
    (t.mapRows f).mapRows g = t.mapRows fun id row => g id (f id row) := by
  refine ext ?_ rfl
  simp [mapRows]

/-! ## The record of a key -/

variable {key : α → κ} {c : κ}

section
variable [BEq κ]

/-- The record of lowest id whose row has the key `c`. -/
def at? (t : Table α) (key : α → κ) (c : κ) : Option (Record α) := t.find? fun row => key row == c

/-- What is found by its key is there. -/
theorem mem_of_at? {t : Table α} {r : Record α} (h : t.at? key c = some r) : r ∈ t.records :=
  List.mem_of_find?_eq_some h

/-- The record of a key depends on no other records than those of that key. -/
theorem at?_congr {t u : Table α}
    (h : t.records.filter (fun r => key r.row == c) = u.records.filter (fun r => key r.row == c)) :
    t.at? key c = u.at? key c := by
  unfold at? find?
  rw [← List.head?_filter, ← List.head?_filter, h]

/-- Changed rows are found under the keys that they had, if they keep these. -/
theorem at?_mapRows {t : Table α} {f : Int → α → α}
    (h : ∀ r ∈ t.records, key (f r.id r.row) = key r.row) :
    (t.mapRows f).at? key c = (t.at? key c).map fun r => ⟨r.id, f r.id r.row⟩ := by
  unfold at? find? mapRows
  rw [List.find?_map, ← List.head?_filter, ← List.head?_filter]
  refine congrArg _ (congrArg _ (List.filter_congr fun r hr => ?_))
  simp [h r hr]

end

section
variable [BEq κ] [LawfulBEq κ]

/-- What is found by a key has that key. -/
theorem key_of_at? {t : Table α} {r : Record α} (h : t.at? key c = some r) : key r.row = c := by
  simpa using List.find?_some h

/-- Nothing is found where no row has the key. -/
theorem at?_eq_none_iff {t : Table α} : t.at? key c = none ↔ ∀ r ∈ t.records, key r.row ≠ c := by
  simp [at?, find?]

/-- The record of a key has the lowest id of all with that key. -/
theorem at?_eq_some_iff {t : Table α} {r : Record α} :
    t.at? key c = some r ↔
      r ∈ t.records ∧ key r.row = c ∧ ∀ q ∈ t.records, key q.row = c → r.id ≤ q.id := by
  -- The search finds the first record of the key, and ids ascend.
  have hlowest : ∀ {r q}, t.at? key c = some r → q ∈ t.records → key q.row = c → r.id ≤ q.id := by
    intro r q h hq hkey
    obtain ⟨-, front, rest, hsplit, hfront⟩ := List.find?_eq_some_iff_append.1 h
    rw [hsplit] at hq
    rcases List.mem_append.1 hq with hq | hq
    · have := hfront q hq
      simp [hkey] at this
    · rcases List.mem_cons.1 hq with rfl | hq
      · exact Int.le_refl _
      · have hrest := (List.pairwise_append.1 (hsplit ▸ t.ascending)).2.1
        exact Int.le_of_lt ((List.pairwise_cons.1 hrest).1 q hq)
  constructor
  · intro h
    exact ⟨mem_of_at? h, key_of_at? h, fun q hq hkey => hlowest h hq hkey⟩
  · rintro ⟨hr, hkey, hle⟩
    cases hat : t.at? key c with
    | none => exact absurd hkey (at?_eq_none_iff.1 hat r hr)
    | some q =>
      have h₁ := hlowest hat hr hkey
      have h₂ := hle q (mem_of_at? hat) (key_of_at? hat)
      rw [eq_of_id_eq (mem_of_at? hat) hr (Int.le_antisymm h₁ h₂)]

/-- Dropping rows of other keys leaves the record of a key. -/
theorem at?_keep {t : Table α} {p : Record α → Bool}
    (h : ∀ r ∈ t.records, key r.row = c → p r = true) : (t.keep p).at? key c = t.at? key c := by
  refine at?_congr ?_
  unfold keep
  rw [List.filter_filter]
  refine List.filter_congr fun r hr => ?_
  by_cases hc : key r.row = c
  · simp [hc, h r hr hc]
  · simp [hc]

/-- A row with another key does not get in the way. -/
theorem at?_add_of_ne {t : Table α} {row : α} (h : key row ≠ c) :
    (t.add row).at? key c = t.at? key c := by
  refine at?_congr ?_
  simp [add, List.filter_append, h]

/-- A new key is found at the row that brought it. -/
theorem at?_add_self {t : Table α} {row : α} (h : t.at? key (key row) = none) :
    (t.add row).at? key (key row) = some ⟨t.nextId, row⟩ := by
  unfold at? find? at h
  unfold at? find? add
  simp [List.find?_append, h]

end

/-! ## Unique keys -/

/-- No two records agree in their key. -/
def HasUniqueKeys (key : α → κ) (t : Table α) : Prop :=
  ∀ r ∈ t.records, ∀ r' ∈ t.records, key r.row = key r'.row → r = r'

namespace HasUniqueKeys

theorem empty : HasUniqueKeys key (∅ : Table α) := by
  intro r hr
  cases hr

theorem keep {t : Table α} (h : HasUniqueKeys key t) (p : Record α → Bool) :
    HasUniqueKeys key (t.keep p) := by
  intro r hr r' hr'
  exact h r (mem_keep.1 hr).1 r' (mem_keep.1 hr').1

/-- Changes that leave the keys alone leave them unique. -/
theorem mapRows {t : Table α} (h : HasUniqueKeys key t) {f : Int → α → α}
    (hf : ∀ r ∈ t.records, key (f r.id r.row) = key r.row) : HasUniqueKeys key (t.mapRows f) := by
  intro r hr r' hr' hkey
  obtain ⟨q, hq, rfl⟩ := mem_mapRows.1 hr
  obtain ⟨q', hq', rfl⟩ := mem_mapRows.1 hr'
  have : q = q' := h q hq q' hq' (by rw [← hf q hq, ← hf q' hq', hkey])
  rw [this]

/-- A row with a new key leaves the keys unique. -/
theorem add {t : Table α} (h : HasUniqueKeys key t) {row : α}
    (hrow : ∀ r ∈ t.records, key r.row ≠ key row) : HasUniqueKeys key (t.add row) := by
  intro r hr r' hr' hkey
  rcases mem_add.1 hr with hr | rfl
  · rcases mem_add.1 hr' with hr' | rfl
    · exact h r hr r' hr' hkey
    · exact absurd hkey (hrow r hr)
  · rcases mem_add.1 hr' with hr' | rfl
    · exact absurd hkey.symm (hrow r' hr')
    · rfl

/-- Where keys are unique, a lookup by key finds whatever record has the key. -/
theorem at?_eq_some_iff [BEq κ] [LawfulBEq κ] {t : Table α} {c : κ} (h : HasUniqueKeys key t)
    {r : Record α} : t.at? key c = some r ↔ r ∈ t.records ∧ key r.row = c := by
  rw [Table.at?_eq_some_iff]
  constructor
  · rintro ⟨hmem, hkey, -⟩
    exact ⟨hmem, hkey⟩
  · rintro ⟨hmem, hkey⟩
    refine ⟨hmem, hkey, fun q hq hkey' => ?_⟩
    have hsame : r = q := h r hmem q hq (hkey.trans hkey'.symm)
    exact Int.le_of_eq (congrArg Record.id hsame)

end HasUniqueKeys
end Table
end ApiCatalog
