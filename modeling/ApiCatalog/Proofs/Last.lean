/-!
# The last item of a key

Where items of a list are taken one after the other, and each overrides those of its key that came
before, the last one of every key counts. `lastWith?` finds it, and `lastWith?_eq_some_iff` splits
the list there.
-/

namespace ApiCatalog

variable {α κ : Type} [BEq κ] {key : α → κ} {c : κ} {items : List α}

/-- The last item with the key `c`. -/
def lastWith? (key : α → κ) (c : κ) (items : List α) : Option α :=
  (items.filter (key · == c)).getLast?

/-- The last item of a key in an image is the image of the last item. -/
theorem lastWith?_map {β : Type} (f : β → α) (bs : List β) :
    lastWith? key c (bs.map f) = (lastWith? (key ∘ f) c bs).map f := by
  unfold lastWith?
  rw [List.filter_map, List.getLast?_map]
  rfl

theorem lastWith?_append (front rest : List α) :
    lastWith? key c (front ++ rest) = (lastWith? key c rest).or (lastWith? key c front) := by
  unfold lastWith?
  rw [List.filter_append, List.getLast?_append]

/-- In what items contribute, the last one is the last one in the parts of those items that
contribute any of the key. -/
theorem lastWith?_flatMap {β γ κ' : Type} [BEq κ'] {key : β → κ} {f : α → List β} {p : α → Bool}
    {parts : α → List γ} {key' : γ → κ'} {c' : κ'} {make : γ → β}
    (h : ∀ a ∈ items, (f a).filter (key · == c) =
      if p a = true then ((parts a).filter (key' · == c')).map make else []) :
    lastWith? key c (items.flatMap f) =
      (lastWith? key' c' ((items.filter p).flatMap parts)).map make := by
  unfold lastWith?
  rw [← List.getLast?_map]
  -- The items of the key are the same on both sides, and not only the last of them.
  congr 1
  induction items with
  | nil => rfl
  | cons a items ih =>
    have hrest := ih fun b hb => h b (List.mem_cons_of_mem _ hb)
    rw [List.flatMap_cons, List.filter_append, hrest, h a List.mem_cons_self]
    by_cases hp : p a = true
    · rw [if_pos hp, List.filter_cons_of_pos hp, List.flatMap_cons, List.filter_append,
        List.map_append]
    · rw [if_neg hp, List.filter_cons_of_neg hp, List.nil_append]

variable [LawfulBEq κ]

/-- The last item of a key depends on no more than which items have the key. -/
theorem lastWith?_congr {κ' : Type} [BEq κ'] [LawfulBEq κ'] {key' : α → κ'} {c' : κ'}
    (h : ∀ a ∈ items, key a = c ↔ key' a = c') :
    lastWith? key c items = lastWith? key' c' items := by
  unfold lastWith?
  refine congrArg _ (List.filter_congr fun a ha => ?_)
  rw [Bool.eq_iff_iff, beq_iff_eq, beq_iff_eq]
  exact h a ha

theorem lastWith?_eq_none_iff : lastWith? key c items = none ↔ ∀ a ∈ items, key a ≠ c := by
  simp [lastWith?]

/-- An item is the last one of its key if no item behind it has that key. -/
theorem lastWith?_eq_some_iff {a : α} :
    lastWith? key c items = some a ↔
      key a = c ∧ ∃ front rest, items = front ++ a :: rest ∧ ∀ b ∈ rest, key b ≠ c := by
  unfold lastWith?
  constructor
  · intro h
    obtain ⟨kept, hkept⟩ := List.getLast?_eq_some_iff.1 h
    obtain ⟨front, tail, rfl, -, htail⟩ := List.filter_eq_append_iff.1 hkept
    obtain ⟨skipped, rest, rfl, -, ha, hrest⟩ := List.filter_eq_cons_iff.1 htail
    refine ⟨by simpa using ha, front ++ skipped, rest, by simp, fun b hb => ?_⟩
    simpa using List.filter_eq_nil_iff.1 hrest b hb
  · rintro ⟨rfl, front, rest, rfl, hrest⟩
    have hnone : rest.filter (key · == key a) = [] :=
      List.filter_eq_nil_iff.2 fun b hb => by simpa using hrest b hb
    simp [List.filter_append, hnone]

/-- The last item of a key decides how a pass over all items ends, if no item of another key undoes
what it did. -/
theorem foldl_of_lastWith? {σ : Type} {f : σ → α → σ} {P : σ → Prop} {a : α}
    (h : lastWith? key c items = some a) (hself : ∀ s, P (f s a))
    (hother : ∀ s b, key b ≠ c → P s → P (f s b)) (s : σ) : P (items.foldl f s) := by
  obtain ⟨-, front, rest, rfl, hrest⟩ := lastWith?_eq_some_iff.1 h
  rw [List.foldl_append, List.foldl_cons]
  -- Whatever the front came to, the item establishes `P`; the rest keeps it step by step.
  have hdone : P (f (front.foldl f s) a) := hself _
  generalize f (front.foldl f s) a = t at hdone
  clear h
  induction rest generalizing t with
  | nil => exact hdone
  | cons b rest ih =>
    have hb : P (f t b) := hother t b (hrest b List.mem_cons_self) hdone
    exact ih (fun b' hb' => hrest b' (List.mem_cons_of_mem _ hb')) (f t b) hb

theorem key_of_lastWith? {a : α} (h : lastWith? key c items = some a) : key a = c :=
  (lastWith?_eq_some_iff.1 h).1

theorem mem_of_lastWith? {a : α} (h : lastWith? key c items = some a) : a ∈ items := by
  obtain ⟨-, front, rest, rfl, -⟩ := lastWith?_eq_some_iff.1 h
  simp

theorem exists_lastWith? {a : α} (h : a ∈ items) : ∃ b, lastWith? key (key a) items = some b := by
  cases hlast : lastWith? key (key a) items with
  | none => exact absurd rfl (lastWith?_eq_none_iff.1 hlast a h)
  | some b => exact ⟨b, rfl⟩

/-- Where no two items have one key, every item is the only one of its key. -/
theorem filter_key_of_nodup {a : α} (hnodup : (items.map key).Nodup) (h : a ∈ items) :
    items.filter (key · == key a) = [a] := by
  obtain ⟨front, rest, rfl⟩ := List.append_of_mem h
  rw [List.map_append, List.map_cons, List.nodup_append, List.nodup_cons] at hnodup
  obtain ⟨-, ⟨hrest, -⟩, hfront⟩ := hnodup
  have hfront' : front.filter (key · == key a) = [] := by
    refine List.filter_eq_nil_iff.2 fun b hb hkey => ?_
    exact hfront (key b) (List.mem_map_of_mem hb) (key a) List.mem_cons_self (by simpa using hkey)
  have hrest' : rest.filter (key · == key a) = [] := by
    refine List.filter_eq_nil_iff.2 fun b hb hkey => hrest ?_
    rw [beq_iff_eq] at hkey
    exact hkey ▸ List.mem_map_of_mem hb
  rw [List.filter_append, List.filter_cons_of_pos (by simp), hfront', hrest']
  rfl

theorem lastWith?_of_nodup {a : α} (hnodup : (items.map key).Nodup) (h : a ∈ items) :
    lastWith? key (key a) items = some a := by
  unfold lastWith?
  rw [filter_key_of_nodup hnodup h]
  rfl

end ApiCatalog
