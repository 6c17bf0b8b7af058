import ApiCatalog.Proofs.Json.Spelling
import ApiCatalog.Store.TextList

/-!
# Lists of texts are read as they were written

A list of texts is written as a JSON array without blanks. That is one of its spellings
(`spellsTexts_compact`), and whatever spells a list is read as the list (`decode_eq_some_iff`).
-/

namespace ApiCatalog

variable {text : String} {items : List String}

namespace Json

/-! ## The spelling that is written -/

theorem spellsText_quoted (s : String) : SpellsText (quoted s) s := by
  obtain ⟨u, hu, hquoted⟩ := readString_eq_some_iff.1 (readString_quoted s [])
  refine ⟨u, hu, ?_⟩
  rw [quoted, List.cons_append, hquoted]

/-- Behind the opening bracket stand the items, with commas only between them. -/
theorem exists_spellsItems_compactItems (s : String) (items : List String) :
    ∃ body, compactItems ((s :: items).map .text) = body ++ [']'] ∧
      SpellsItems body (s :: items) := by
  induction items generalizing s with
  | nil =>
    refine ⟨_, ?_, .last isGapText_nil (spellsText_quoted s) isGapText_nil⟩
    simp [compactItems, compact, scalar]
  | cons t items ih =>
    obtain ⟨body, hbody, hitems⟩ := ih t
    refine ⟨_, ?_, .more isGapText_nil (spellsText_quoted s) isGapText_nil hitems⟩
    have hcompact : compactItems ((s :: t :: items).map .text) =
        quoted s ++ ',' :: compactItems ((t :: items).map .text) := by
      simp [compactItems, compact, scalar]
    rw [hcompact, hbody]
    simp

/-- The array without blanks spells its list. -/
theorem spellsTexts_compact (items : List String) : SpellsTexts (texts items).compact items := by
  cases items with
  | nil => exact ⟨[], [], [], isGapText_nil, isGapText_nil, rfl, .inl ⟨isGapText_nil, rfl⟩⟩
  | cons s items =>
    obtain ⟨body, hbody, hitems⟩ := exists_spellsItems_compactItems s items
    refine ⟨[], body, [], isGapText_nil, isGapText_nil, ?_, .inr hitems⟩
    rw [texts, compact, hbody]
    rfl

/-! ## Decoding -/

theorem list?_text?_eq_some_iff {value : Json} :
    list? text? value = some items ↔ value = texts items := by
  constructor
  · intro h
    cases value with
    | array values =>
      -- On the values: the first one that is no text ends the reading.
      have hall : values = items.map .text := by
        induction values generalizing items with
        | nil =>
          cases h
          rfl
        | cons value values ih =>
          simp only [list?, List.mapM_cons, Option.bind_eq_bind, Option.bind_eq_some_iff,
            Option.pure_def, Option.some.injEq] at h
          obtain ⟨item, hitem, items, hitems, rfl⟩ := h
          cases value <;> cases hitem
          rw [List.map_cons, ih hitems]
      rw [hall, texts]
    | _ => cases h
  · rintro rfl
    show (items.map Json.text).mapM text? = some items
    rw [List.mapM_map]
    exact (List.mapM_pure (m := Option) (f := id)).trans (by rw [List.map_id]; rfl)

/-- A text is decoded as a list of texts just if it spells that list. -/
theorem decode_eq_some_iff :
    (read? text.toList).bind (list? text?) = some items ↔ SpellsTexts text.toList items := by
  rw [← read?_eq_texts_iff, Option.bind_eq_some_iff]
  simp only [list?_text?_eq_some_iff, exists_eq_right]

end Json

/-- The text of a list is read as that list. -/
theorem TextList.read_write (items : List String) : read (write items) = items := by
  have hspells : Json.SpellsTexts (write items).toList items := by
    rw [write, String.toList_ofList]
    exact Json.spellsTexts_compact items
  rw [read, Json.decode_eq_some_iff.2 hspells]
  rfl

end ApiCatalog
