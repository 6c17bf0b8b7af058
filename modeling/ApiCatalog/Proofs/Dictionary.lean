import ApiCatalog.Dictionary
import ApiCatalog.Proofs.Last
import Mathlib.Data.List.Nodup

/-!
# What a dictionary holds

A dictionary is known by its lookups: two that answer every key alike are equal (`ext_get?`). So it
does not matter how one came about. Entries put in one after the other leave the last one of every
key, and a dictionary made of a list first and merged afterwards is the same as the list put in
entry by entry (`merge_ofList`).
-/

namespace ApiCatalog.Dictionary

variable {α : Type} {d e : Dictionary α} {key k : String} {value : α}
  {entries : List (String × α)}

/-! ## One key -/

theorem find?_insertEntry :
    (insertEntry key value entries).find? (·.1 == k) =
      if k = key then some (key, value) else entries.find? (·.1 == k) := by
  -- Along the insertion: the key goes in front of the entry, replaces it, or is inserted further
  -- on.
  induction entries with
  | nil =>
    by_cases h : k = key
    · simp [insertEntry, h]
    · simp [insertEntry, h, Ne.symm h]
  | cons entry entries ih =>
    obtain ⟨k', v⟩ := entry
    unfold insertEntry
    split
    · by_cases h : k = key
      · simp [h]
      · simp [h, Ne.symm h]
    split
    · next hkey =>
      subst hkey
      by_cases h : k = key
      · simp [h]
      · simp [h, Ne.symm h]
    -- The entry stands before the new key, so only a lookup of the entry's own key stops here.
    · next hkey =>
      by_cases h : k' = k
      · subst h
        simp [Ne.symm hkey]
      · simp [h, ih]

theorem get?_insert (d : Dictionary α) (key k : String) (value : α) :
    (d.insert key value).get? k = if k = key then some value else d.get? k := by
  unfold get? insert
  rw [find?_insertEntry]
  split <;> rfl

theorem get?_empty (k : String) : (empty : Dictionary α).get? k = none := rfl

/-! ## Dictionaries are known by their lookups -/

theorem nodup_keys (d : Dictionary α) : d.keys.Nodup := by
  refine List.pairwise_map.2 (d.ascending.imp fun {a b} hab heq => ?_)
  rw [heq] at hab
  exact String.lt_irrefl b.1 hab

theorem nodup_entries (d : Dictionary α) : d.entries.Nodup := by
  have hkeys : (d.entries.map Prod.fst).Nodup := d.nodup_keys
  exact List.Nodup.of_map Prod.fst hkeys

theorem get?_eq_some_iff : d.get? k = some value ↔ (k, value) ∈ d.entries := by
  have hnodup : (d.entries.map Prod.fst).Nodup := d.nodup_keys
  unfold get?
  generalize d.entries = entries at hnodup
  induction entries with
  | nil => simp
  | cons entry entries ih =>
    obtain ⟨k', v⟩ := entry
    rw [List.map_cons, List.nodup_cons] at hnodup
    by_cases h : k' = k
    · subst h
      have hfirst : (k', value) ∉ entries := fun hmem => hnodup.1 (List.mem_map.2 ⟨_, hmem, rfl⟩)
      simp [hfirst, eq_comm]
    · simp [h, ih hnodup.2, Ne.symm h]

theorem mem_keys_iff : k ∈ d.keys ↔ ∃ value, d.get? k = some value := by
  simp only [get?_eq_some_iff]
  simp [keys]

/-- Dictionaries that answer every key alike are equal. -/
theorem ext_get? (h : ∀ k, d.get? k = e.get? k) : d = e := by
  have hmem : ∀ entry, entry ∈ d.entries ↔ entry ∈ e.entries := by
    intro ⟨k, value⟩
    rw [← get?_eq_some_iff, ← get?_eq_some_iff, h]
  -- Entries stand in strict order, so a permutation of them is the same list.
  have hperm : d.entries.Perm e.entries :=
    (List.perm_ext_iff_of_nodup d.nodup_entries e.nodup_entries).2 hmem
  refine ext (hperm.eq_of_pairwise (fun a b _ _ hab hba => ?_) d.ascending e.ascending)
  exact absurd (String.lt_trans hab hba) (String.lt_irrefl _)

/-! ## Many entries -/

/-- The dictionary with entries put in one after the other. -/
def insertAll (d : Dictionary α) (entries : List (String × α)) : Dictionary α :=
  entries.foldl (fun d e => d.insert e.1 e.2) d

/-- Of the entries of one key the last counts. -/
theorem get?_insertAll :
    (d.insertAll entries).get? k = ((lastWith? Prod.fst k entries).map Prod.snd).or (d.get? k) := by
  unfold insertAll
  induction entries generalizing d with
  | nil => rfl
  | cons entry entries ih =>
    rw [List.foldl_cons, ih, get?_insert, ← List.singleton_append, lastWith?_append]
    by_cases h : k = entry.1
    · subst h
      have hentry : lastWith? Prod.fst entry.1 [entry] = some entry := by simp [lastWith?]
      cases hlast : lastWith? Prod.fst entry.1 entries <;> simp [hentry]
    · have hentry : lastWith? Prod.fst k [entry] = none := by simp [lastWith?, Ne.symm h]
      simp [hentry, h]

theorem lastWith?_entries (d : Dictionary α) (k : String) :
    (lastWith? Prod.fst k d.entries).map Prod.snd = d.get? k := by
  cases hlast : lastWith? Prod.fst k d.entries with
  | none =>
    refine (Option.eq_none_iff_forall_ne_some.2 fun value hvalue => ?_).symm
    exact lastWith?_eq_none_iff.1 hlast _ (get?_eq_some_iff.1 hvalue) rfl
  | some entry =>
    have hkey : entry.1 = k := key_of_lastWith? hlast
    refine (get?_eq_some_iff.2 ?_).symm
    rw [← hkey]
    exact mem_of_lastWith? hlast

theorem get?_ofList (entries : List (String × α)) (k : String) :
    (ofList entries).get? k = (lastWith? Prod.fst k entries).map Prod.snd := by
  have hget : (empty.insertAll entries).get? k = _ := get?_insertAll
  rw [get?_empty, Option.or_none] at hget
  exact hget

theorem mem_keys_ofList : k ∈ (ofList entries).keys ↔ ∃ e ∈ entries, e.1 = k := by
  simp only [mem_keys_iff, get?_ofList, Option.map_eq_some_iff]
  constructor
  · rintro ⟨-, e, he, rfl⟩
    exact ⟨e, mem_of_lastWith? he, key_of_lastWith? he⟩
  · rintro ⟨e, he, rfl⟩
    have hlast : ∃ last, lastWith? Prod.fst e.1 entries = some last := exists_lastWith? he
    obtain ⟨last, hlast⟩ := hlast
    exact ⟨_, last, hlast, rfl⟩

/-- A dictionary is made of its entries. -/
theorem ofList_entries (d : Dictionary α) : ofList d.entries = d := by
  refine ext_get? fun k => ?_
  rw [get?_ofList, lastWith?_entries]

/-- Entries gathered in a dictionary first come to the same as entries put in one by one. -/
theorem merge_ofList (d : Dictionary α) (entries : List (String × α)) :
    d.merge (ofList entries) = d.insertAll entries := by
  refine ext_get? fun k => ?_
  have hmerge : (d.insertAll (ofList entries).entries).get? k = (d.insertAll entries).get? k := by
    rw [get?_insertAll, get?_insertAll, lastWith?_entries, get?_ofList]
  exact hmerge

end ApiCatalog.Dictionary
