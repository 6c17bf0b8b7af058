import ApiCatalog.Document.Encode
import ApiCatalog.Json.Decode
import ApiCatalog.Proofs.Dictionary
import ApiCatalog.Proofs.Json.Pretty
import Mathlib.Data.List.Nodup

/-!
# Records are decoded field by field

A record is written with some of its fields left out. Whatever they are, an object of the fields
that are there (`present`) decodes to every field of the record, present or absent
(`members?_present`), so the decoder of a record is the inverse of its encoder as soon as the
decoder of each field undoes what that field is written as.
-/

namespace ApiCatalog.Json

variable {α : Type} {fields : List (String × Option Json)} {key : String}

/-- The fields that are there. -/
def present (fields : List (String × Option Json)) : List (String × Json) :=
  fields.filterMap fun field => field.2.map (field.1, ·)

/-- A field is there if it has a value. -/
theorem mem_present {field : String × Json} :
    field ∈ present fields ↔ (field.1, some field.2) ∈ fields := by
  obtain ⟨key, value⟩ := field
  unfold present
  rw [List.mem_filterMap]
  constructor
  · rintro ⟨⟨k, v⟩, hmem, hfield⟩
    obtain ⟨w, rfl, hw⟩ := Option.map_eq_some_iff.1 hfield
    cases hw
    exact hmem
  · exact fun hmem => ⟨_, hmem, rfl⟩

/-! ## Fields of an object -/

theorem valuesOf_present_cons (k : String) (value : Option Json) :
    valuesOf key ((present ((k, value) :: fields)).map fun field => (some field.1, field.2)) =
      (if k = key then value.toList else []) ++
        valuesOf key ((present fields).map fun field => (some field.1, field.2)) := by
  cases value with
  | none => simp [present]
  | some value => by_cases hk : k = key <;> simp [present, valuesOf, hk]

/-- What stands under a key in an object of the fields that are there. -/
theorem valuesOf_present (hnodup : (fields.map Prod.fst).Nodup) {value : Option Json}
    (hmem : (key, value) ∈ fields) :
    valuesOf key ((present fields).map fun field => (some field.1, field.2)) = value.toList := by
  obtain ⟨front, rest, rfl⟩ := List.append_of_mem hmem
  clear hmem
  -- No other field has the key, in front of this one or behind it.
  have hother : ∀ {others : List (String × Option Json)}, key ∉ others.map Prod.fst →
      valuesOf key ((present others).map fun field => (some field.1, field.2)) = [] := by
    intro others hothers
    induction others with
    | nil => rfl
    | cons field others ih =>
      rw [List.map_cons, List.mem_cons, not_or] at hothers
      rw [valuesOf_present_cons, if_neg (Ne.symm hothers.1), ih hothers.2, List.append_nil]
  induction front with
  | nil =>
    have hrest := (List.nodup_cons.1 hnodup).1
    rw [List.nil_append, valuesOf_present_cons, if_pos rfl, hother hrest, List.append_nil]
  | cons field front ih =>
    obtain ⟨hfront, hnodup⟩ := List.nodup_cons.1 hnodup
    have hne : field.1 ≠ key := by
      rintro rfl
      exact hfront (by simp)
    rw [List.cons_append, valuesOf_present_cons, if_neg hne, List.nil_append, ih hnodup]

/-- Where names are different, the value of a field is found under its name. -/
theorem single?_present (hnodup : (fields.map Prod.fst).Nodup) {value : Option Json}
    (hmem : (key, value) ∈ fields) :
    single? key ((present fields).map fun field => (some field.1, field.2)) = some value := by
  unfold single?
  rw [valuesOf_present hnodup hmem]
  cases value <;> rfl

/-- An object of the fields that are there decodes to all of them, present or absent. -/
theorem members?_present (fields : List (String × Option Json))
    (hnodup : (fields.map Prod.fst).Nodup) :
    members? (fields.map Prod.fst) (record (present fields)) = some (fields.map Prod.snd) := by
  have hkeys : ((present fields).map fun field => (some field.1, field.2)).all (·.1.isSome) := by
    simp
  have hfields : ∀ part ⊆ fields, (part.map Prod.fst).mapM
      (single? · ((present fields).map fun field => (some field.1, field.2))) =
        some (part.map Prod.snd) := by
    intro part hpart
    induction part with
    | nil => rfl
    | cons field part ih =>
      obtain ⟨hhead, htail⟩ := List.cons_subset.1 hpart
      rw [List.map_cons, List.mapM_cons, single?_present hnodup hhead, ih htail]
      rfl
  unfold members? record
  simp only [hkeys, if_true]
  exact hfields fields (List.Subset.refl _)

/-- An object of all fields decodes to all of them. -/
theorem members?_record {names : List String} {fields : List (String × Json)}
    (hnames : fields.map Prod.fst = names) (hnodup : names.Nodup) :
    members? names (record fields) = some (fields.map fun field => some field.2) := by
  subst hnames
  have hthere : present (fields.map fun field => (field.1, some field.2)) = fields := by
    simp [present, List.filterMap_map]
  have hmembers := members?_present (fields.map fun field => (field.1, some field.2))
    (by simpa [Function.comp_def] using hnodup)
  rw [hthere, List.map_map, List.map_map] at hmembers
  exact hmembers

/-! ## The decoders of fields -/

/-- An optional field is read as it was written, if null is no value of it. -/
theorem optional_map {decode : Json → Option α} (encode : α → Json)
    (hnull : ∀ a, encode a ≠ .null) (h : ∀ a, decode (encode a) = some a) (value : Option α) :
    optional decode (value.map encode) = some value := by
  cases value with
  | none => rfl
  | some a =>
    rw [Option.map_some, optional, h, Option.map_some]
    · intro heq
      exact hnull a heq

theorem optional_textOrNull (s : Option String) :
    optional text? (some (textOrNull s)) = some s := by
  cases s <;> rfl

/-- A list is read item by item. -/
theorem list?_list {decode : Json → Option α} (encode : α → Json) {items : List α}
    (h : ∀ a ∈ items, decode (encode a) = some a) :
    list? decode (list encode items) = some items := by
  unfold list? list
  induction items with
  | nil => rfl
  | cons a items ih =>
    have hrest := ih fun b hb => h b (List.mem_cons_of_mem _ hb)
    simp only [List.map_cons, List.mapM_cons, h a List.mem_cons_self] at hrest ⊢
    rw [hrest]
    rfl

theorem list?_texts (items : List String) : list? text? (texts items) = some items :=
  list?_list .text fun _ _ => rfl

/-- A dictionary is read entry by entry. -/
theorem entries?_ofDictionary {decode : Json → Option α} {encode : α → Json} {d : Dictionary α}
    (h : ∀ entry ∈ d.entries, decode (encode entry.2) = some entry.2) :
    (entries? decode (ofDictionary encode d)).map Dictionary.ofList = some d := by
  have hentries : entries? decode (ofDictionary encode d) = some d.entries := by
    unfold entries? ofDictionary record
    generalize d.entries = entries at h
    induction entries with
    | nil => rfl
    | cons entry entries ih =>
      have hrest := ih fun e he => h e (List.mem_cons_of_mem _ he)
      simp only [List.map_cons, List.mapM_cons, h entry List.mem_cons_self] at hrest ⊢
      rw [hrest]
      rfl
  rw [hentries, Option.map_some, Dictionary.ofList_entries]

/-! ## Values that programs write -/

/-- An object can be read back if its fields can. -/
theorem written_record {fields : List (String × Json)} (h : ∀ field ∈ fields, Written field.2) :
    Written (record fields) := by
  refine .object (fun field hfield => ?_) (fun field hfield => ?_)
  · obtain ⟨field, -, rfl⟩ := List.mem_map.1 hfield
    rfl
  · obtain ⟨field, hmem, rfl⟩ := List.mem_map.1 hfield
    exact h field hmem

theorem written_present (h : ∀ field ∈ fields, ∀ value ∈ field.2, Written value) :
    Written (record (present fields)) :=
  written_record fun _ hfield => h _ (mem_present.1 hfield) _ rfl

/-- A list can be read back if its items can. -/
theorem written_list (encode : α → Json) {items : List α} (h : ∀ a ∈ items, Written (encode a)) :
    Written (list encode items) := by
  refine .array fun value hvalue => ?_
  obtain ⟨a, hmem, rfl⟩ := List.mem_map.1 hvalue
  exact h a hmem

theorem written_texts (items : List String) : Written (texts items) :=
  written_list .text fun s _ => .text s

theorem written_textOrNull (s : Option String) : Written (textOrNull s) := by
  cases s with
  | none => exact .null
  | some s => exact .text s

theorem written_ofDictionary {encode : α → Json} {d : Dictionary α}
    (h : ∀ entry ∈ d.entries, Written (encode entry.2)) : Written (ofDictionary encode d) := by
  refine written_record fun field hfield => ?_
  obtain ⟨entry, hmem, rfl⟩ := List.mem_map.1 hfield
  exact h entry hmem

/-! ## Values that are read whole -/

/-- A value that may be read whole: at most `depth` arrays and objects lie inside each other, and
every string and number in it denotes something. -/
def FitsIn (depth : Nat) (value : Json) : Prop := value.nesting ≤ depth ∧ value.isPlain = true

variable {depth : Nat}

/-- An array is one level deeper than its items. -/
theorem fitsIn_array {items : List Json} (h : ∀ item ∈ items, FitsIn depth item) :
    FitsIn (depth + 1) (.array items) := by
  unfold FitsIn
  rw [nesting, isPlain]
  induction items with
  | nil => simp [nestingOfItems, arePlainItems]
  | cons item items ih =>
    obtain ⟨hdepth, hplain⟩ := h item List.mem_cons_self
    obtain ⟨hrest, hrest'⟩ := ih fun item hmem => h item (List.mem_cons_of_mem _ hmem)
    rw [nestingOfItems, arePlainItems, hplain, hrest']
    exact ⟨by omega, rfl⟩

/-- An object is one level deeper than its fields. -/
theorem fitsIn_record {fields : List (String × Json)} (h : ∀ field ∈ fields, FitsIn depth field.2) :
    FitsIn (depth + 1) (record fields) := by
  unfold FitsIn record
  rw [nesting, isPlain]
  induction fields with
  | nil => simp [nestingOfFields, arePlainFields]
  | cons field fields ih =>
    obtain ⟨hdepth, hplain⟩ := h field List.mem_cons_self
    obtain ⟨hrest, hrest'⟩ := ih fun field hmem => h field (List.mem_cons_of_mem _ hmem)
    rw [List.map_cons, nestingOfFields, arePlainFields, hplain, hrest']
    exact ⟨by omega, rfl⟩

theorem fitsIn_present (h : ∀ field ∈ fields, ∀ value ∈ field.2, FitsIn depth value) :
    FitsIn (depth + 1) (record (present fields)) :=
  fitsIn_record fun _ hfield => h _ (mem_present.1 hfield) _ rfl

theorem fitsIn_text (s : String) : FitsIn depth (.text s) := ⟨Nat.zero_le _, rfl⟩

theorem fitsIn_list (encode : α → Json) {items : List α}
    (h : ∀ a ∈ items, FitsIn depth (encode a)) : FitsIn (depth + 1) (list encode items) := by
  refine fitsIn_array fun value hvalue => ?_
  obtain ⟨a, hmem, rfl⟩ := List.mem_map.1 hvalue
  exact h a hmem

end ApiCatalog.Json
