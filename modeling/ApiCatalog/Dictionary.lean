/-!
# Dictionaries

A dictionary maps texts to values and is walked in ascending order of its keys. It is its list
of entries, strictly ascending, so two dictionaries with the same entries are equal.
-/

namespace ApiCatalog

/-- Keys strictly ascending. -/
def Ascending {α : Type} (entries : List (String × α)) : Prop :=
  entries.Pairwise fun a b => a.1 < b.1

/-- Values under keys, in ascending order of the keys. -/
structure Dictionary (α : Type) where
  entries : List (String × α)
  ascending : Ascending entries

namespace Dictionary

variable {α : Type}

/-- The entries with `value` under `key`, in place of what was there. -/
def insertEntry (key : String) (value : α) : List (String × α) → List (String × α)
  | [] => [(key, value)]
  | (k, v) :: rest =>
    if key < k then (key, value) :: (k, v) :: rest
    else if key = k then (key, value) :: rest
    else (k, v) :: insertEntry key value rest

/-- A key of the new entries is the new one or an old one. -/
theorem mem_insertEntry {key : String} {value : α} {e : String × α} :
    ∀ {entries : List (String × α)}, e ∈ insertEntry key value entries →
      e = (key, value) ∨ e ∈ entries
  | [], h => by simpa [insertEntry] using h
  | (k, v) :: rest, h => by
    unfold insertEntry at h
    split at h
    · simpa using h
    · split at h
      · rcases List.mem_cons.1 h with h | h
        · exact .inl h
        · exact .inr (List.mem_cons_of_mem _ h)
      · rcases List.mem_cons.1 h with h | h
        · exact .inr (h ▸ List.mem_cons_self)
        · exact (mem_insertEntry h).imp_right (List.mem_cons_of_mem _)

theorem ascending_insertEntry (key : String) (value : α) :
    ∀ {entries : List (String × α)}, Ascending entries → Ascending (insertEntry key value entries)
  | [], _ => List.pairwise_singleton _ _
  | (k, v) :: rest, h => by
    obtain ⟨hk, hrest⟩ := List.pairwise_cons.1 h
    unfold insertEntry
    split
    · next hlt =>
      refine List.pairwise_cons.2 ⟨fun e he => ?_, h⟩
      rcases List.mem_cons.1 he with rfl | he
      · exact hlt
      · exact String.lt_trans hlt (hk e he)
    · split
      · next heq => subst heq; exact List.pairwise_cons.2 ⟨hk, hrest⟩
      · next hge hne =>
        refine List.pairwise_cons.2 ⟨fun e he => ?_, ascending_insertEntry key value hrest⟩
        rcases mem_insertEntry he with rfl | he
        · rcases String.le_total k key with hle | hle
          · by_cases hlt : k < key
            · exact hlt
            · exact absurd (String.le_antisymm (String.not_lt.1 hlt) hle) hne
          · by_cases hlt : key < k
            · exact absurd hlt hge
            · exact absurd (String.le_antisymm hle (String.not_lt.1 hlt)) hne
        · exact hk e he

/-- No entries. -/
def empty : Dictionary α := ⟨[], List.Pairwise.nil⟩

instance : EmptyCollection (Dictionary α) := ⟨empty⟩

instance : Inhabited (Dictionary α) := ⟨empty⟩

/-- The dictionary with `value` under `key`, in place of what was there. -/
def insert (d : Dictionary α) (key : String) (value : α) : Dictionary α :=
  ⟨insertEntry key value d.entries, ascending_insertEntry key value d.ascending⟩

/-- The dictionary of a list of entries; of entries with one key the last counts. -/
def ofList (entries : List (String × α)) : Dictionary α :=
  entries.foldl (fun d e => d.insert e.1 e.2) empty

/-- The value under `key`. -/
def get? (d : Dictionary α) (key : String) : Option α :=
  (d.entries.find? (·.1 == key)).map Prod.snd

/-- The keys in ascending order. -/
def keys (d : Dictionary α) : List String := d.entries.map Prod.fst

/-- The values in ascending order of their keys. -/
def values (d : Dictionary α) : List α := d.entries.map Prod.snd

/-- The dictionary with the entries of `other` added, which win. -/
def merge (d other : Dictionary α) : Dictionary α :=
  other.entries.foldl (fun d e => d.insert e.1 e.2) d

/-- Dictionaries with the same entries are equal. -/
@[ext] theorem ext {d e : Dictionary α} (h : d.entries = e.entries) : d = e := by
  cases d; cases e; cases h; rfl

instance [DecidableEq α] : DecidableEq (Dictionary α) := fun d e =>
  if h : d.entries = e.entries then isTrue (ext h) else isFalse fun hde => h (hde ▸ rfl)

instance [Repr α] : Repr (Dictionary α) := ⟨fun d n => reprPrec d.entries n⟩

end Dictionary
end ApiCatalog
