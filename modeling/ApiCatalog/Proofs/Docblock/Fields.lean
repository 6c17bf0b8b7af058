import ApiCatalog.Docblock.Tag
import ApiCatalog.Proofs.Text.Blank

/-!
# The fields of a tag

A tag is written as its name, its fields one word each, and its description. Which fields can be
read back depends on the tag's shape: a word must not be taken for its neighbour, a type for a
variable or the start of a description for a version. `Fits` says when that is so, and no less
would do (`ofContent_content_iff`). The address of a link and the element of a reference are read
alike (`wordField`).
-/

namespace ApiCatalog.Tag

open Text

variable {t : Tag} {name description : String} {ts : List String} {w cs : List Char}

/-! ## Fields as words -/

/-- The types as one word; none if there are no types. -/
def typeWords (ts : List String) : List (List Char) :=
  if ts = [] then [] else [joinWith '|' (ts.map String.toList)]

/-- The fields of a tag, one word each. -/
def fieldWords (t : Tag) : List (List Char) :=
  typeWords (t.types.getD []) ++ t.varName.toList.map (fun v => '$' :: v.toList) ++
    t.link.toList.map String.toList ++ t.refers.toList.map String.toList ++
    t.version.toList.map String.toList

/-- The description as the last part of a tag; none if it is empty. -/
def lastWords (description : String) : List (List Char) :=
  if description = "" then [] else [description.toList]

/-- What is written behind the name. -/
def content (t : Tag) : List Char := joinWith ' ' (t.fieldWords ++ lastWords t.description)

/-! ## Fields that can be read back -/

/-- Every type is a word without a bar. -/
def TypesFit (ts : List String) : Prop := ∀ type ∈ ts, IsWord type.toList ∧ '|' ∉ type.toList

/-- The variable has no blank and no sigil in front. -/
def VariableFits (v : String) : Prop :=
  (∀ c ∈ v.toList, isBlank c = false) ∧ v.toList.head? ≠ some '$'

/-- The version is a word that starts with a digit. -/
def VersionFits (v : String) : Prop :=
  IsWord v.toList ∧ ∀ c ∈ v.toList.head?, isDecimalDigit c = true

/-- The tag has the fields of its shape and no others, and each of them is told from what is
written next to it. -/
def Fits (t : Tag) : Prop :=
  match shapeOf t.name with
  | .value => ∃ ts, t = { name := t.name, description := t.description, types := some ts } ∧
      TypesFit ts ∧ (ts = [] → t.description = "")
  | .parameter => ∃ ts var,
      t = { name := t.name, description := t.description, types := some ts, varName := var } ∧
      TypesFit ts ∧ (∀ v ∈ var, VariableFits v) ∧
      (∀ type ∈ ts.head?, isVariable type.toList = false) ∧
      (var = none → ts = [] → t.description = "") ∧
      (var = none → isVariable (nextWord t.description.toList).1 = false)
  | .link => ∃ link, t = { name := t.name, description := t.description, link } ∧
      (∀ l ∈ link, IsWord l.toList) ∧ (link = none → t.description = "")
  | .reference => ∃ refers, t = { name := t.name, description := t.description, refers } ∧
      (∀ r ∈ refers, IsWord r.toList) ∧ (refers = none → t.description = "")
  | .version => ∃ version, t = { name := t.name, description := t.description, version } ∧
      (∀ v ∈ version, VersionFits v) ∧
      (version = none → ∀ c ∈ t.description.toList.head?, isDecimalDigit c = false)
  | .text => t = { name := t.name, description := t.description }

/-! ## Reading what was written -/

/-- A description is written behind the fields, or not at all. -/
theorem joinWith_lastWords (description : String) :
    joinWith ' ' (lastWords description) = description.toList := by
  unfold lastWords
  split
  · next hempty => simp [hempty, joinWith]
  · rfl

/-- The description behind other words does not blur them. -/
theorem solid_lastWords (h : trim description.toList = description.toList) :
    ∀ p ∈ lastWords description, Solid p := by
  intro p hp
  unfold lastWords at hp
  split at hp
  · cases hp
  · next hempty =>
    obtain rfl := List.mem_singleton.1 hp
    exact solid_of_trim h (by simpa using hempty)

/-- The first word comes back, and the words behind it. -/
theorem nextWord_word (hw : IsWord w) (h : trim description.toList = description.toList) :
    nextWord (joinWith ' ' (w :: lastWords description)) = (w, description.toList) := by
  rw [nextWord_joinWith hw (solid_lastWords h), joinWith_lastWords]

/-- A description whose first word is empty is empty. -/
theorem eq_empty_of_isEmpty (h : trim description.toList = description.toList)
    (hfirst : (nextWord description.toList).1.isEmpty = true) : description = "" := by
  by_contra hne
  exact (isWord_nextWord (solid_of_trim h (by simpa using hne))).ne_nil (List.isEmpty_iff.1 hfirst)

/-- A first word that is there has no blanks. -/
theorem isWord_of_not_isEmpty (hfirst : ¬ (nextWord cs).1.isEmpty = true) :
    IsWord (nextWord cs).1 :=
  ⟨fun hnil => hfirst (List.isEmpty_iff.2 hnil), fun _ => no_blank_of_mem_nextWord⟩

/-- The word in front and what follows it, or all of the text if there is no word. -/
def wordField (cs : List Char) : Option String × String :=
  if (nextWord cs).1.isEmpty then (none, .ofList cs)
  else (some (.ofList (nextWord cs).1), .ofList (nextWord cs).2)

theorem isWord_of_mem_wordField {f : String} (hf : f ∈ (wordField cs).1) : IsWord f.toList := by
  unfold wordField at hf
  split at hf
  · cases hf
  · next hword =>
    rw [← Option.some.inj hf, String.toList_ofList]
    exact isWord_of_not_isEmpty hword

/-- A field of one word, or none, is told from the description just if it is a word, and a
description does not stand alone. -/
theorem wordField_eq_iff {field : Option String} (h : trim description.toList = description.toList) :
    wordField (joinWith ' ' (field.toList.map String.toList ++ lastWords description)) =
      (field, description) ↔
    (∀ f ∈ field, IsWord f.toList) ∧ (field = none → description = "") := by
  -- Without a field the content is the description alone, whose first word would become the field;
  -- so nothing is read back right unless the description is empty.
  unfold wordField
  cases field with
  | none =>
    rw [Option.toList_none, List.map_nil, List.nil_append, joinWith_lastWords]
    constructor
    · intro hread
      refine ⟨nofun, fun _ => ?_⟩
      split at hread
      · next hempty => exact eq_empty_of_isEmpty h hempty
      · cases (Prod.mk.inj hread).1
    · rintro ⟨-, hnone⟩
      obtain rfl := hnone rfl
      rfl
  | some f =>
    rw [Option.toList_some, List.map_singleton, List.singleton_append]
    constructor
    · intro hread
      have hfield : (wordField (joinWith ' ' (f.toList :: lastWords description))).1 = some f :=
        congrArg Prod.fst hread
      exact ⟨fun g hg => isWord_of_mem_wordField (hfield ▸ hg), nofun⟩
    · rintro ⟨hword, -⟩
      have hf := hword f rfl
      rw [nextWord_word hf h, if_neg (by simpa using hf.ne_nil), String.ofList_toList,
        String.ofList_toList]

/-- Types are written as one word. -/
theorem isWord_types (hne : ts ≠ []) (h : TypesFit ts) :
    IsWord (joinWith '|' (ts.map String.toList)) := by
  have hsolid : ∀ p ∈ ts.map String.toList, Solid p := by
    intro p hp
    obtain ⟨type, htype, rfl⟩ := List.mem_map.1 hp
    exact (h type htype).1.solid
  refine ⟨(solid_joinWith '|' (by simpa using hne) hsolid).ne_nil, fun c hc => ?_⟩
  rcases mem_joinWith hc with rfl | ⟨p, hp, hc⟩
  · decide
  · obtain ⟨type, htype, rfl⟩ := List.mem_map.1 hp
    exact (h type htype).1.no_blank c hc

/-- Texts come back from their characters. -/
theorem strings_toList (ts : List String) : strings (ts.map String.toList) = ts := by
  simp [strings]

/-- Types come back from their word. -/
theorem splitTypes_types (hne : ts ≠ []) (h : TypesFit ts) :
    splitTypes (joinWith '|' (ts.map String.toList)) = ts.map String.toList := by
  have hbar : ∀ p ∈ ts.map String.toList, '|' ∉ p := by
    intro p hp
    obtain ⟨type, htype, rfl⟩ := List.mem_map.1 hp
    exact (h type htype).2
  have htrim : (ts.map String.toList).map trim = ts.map String.toList := by
    refine (List.map_congr_left fun p hp => ?_).trans (List.map_id _)
    obtain ⟨type, htype, rfl⟩ := List.mem_map.1 hp
    exact (h type htype).1.solid.trim_eq
  rw [splitTypes, splitOn_joinWith (by simpa using hne) hbar, htrim]
  refine List.filter_eq_self.2 fun p hp => ?_
  obtain ⟨type, htype, rfl⟩ := List.mem_map.1 hp
  simpa using (h type htype).1.ne_nil

/-! ## Variables -/

/-- Dots in front of types belong to the first one. -/
theorem dropEllipses_append_bar (cs rest : List Char) :
    dropEllipses (cs ++ '|' :: rest) = dropEllipses cs ++ '|' :: rest := by
  induction cs using dropEllipses.induct with
  | case1 cs ih => exact ih
  | case2 cs hstop =>
    have hwhole : ∀ more, cs ++ '|' :: rest ≠ '.' :: '.' :: '.' :: more := by
      intro more hmore
      match cs, hstop, hmore with
      | a :: b :: c :: cs, hstop, hmore =>
        simp only [List.cons_append, List.cons.injEq] at hmore
        obtain ⟨rfl, rfl, rfl, -⟩ := hmore
        exact hstop cs rfl
    rw [dropEllipses.eq_2 _ hwhole, dropEllipses.eq_2 _ hstop]

/-- A bar behind a word does not make it a variable, and neither does what follows the bar. -/
theorem isVariable_append_bar (cs rest : List Char) :
    isVariable (cs ++ '|' :: rest) = isVariable cs := by
  have hleading : dropLeading '&' (cs ++ '|' :: rest) = dropLeading '&' cs ++ '|' :: rest := by
    unfold dropLeading
    rw [List.dropWhile_append]
    split
    · next hempty => simp [List.isEmpty_iff.1 hempty]
    · rfl
  unfold isVariable bareVariable
  rw [hleading, dropEllipses_append_bar]
  cases dropEllipses (dropLeading '&' cs) with
  | nil => rfl
  | cons c more => rfl

/-- A word of types is a variable just if its first type is. -/
theorem isVariable_types {type : String} (ts : List String) :
    isVariable (joinWith '|' ((type :: ts).map String.toList)) = isVariable type.toList := by
  cases ts with
  | nil => rfl
  | cons next ts =>
    rw [List.map_cons, List.map_cons, joinWith_cons_cons, isVariable_append_bar]

/-- A dollar sign begins a variable. -/
theorem isVariable_sigil (cs : List Char) : isVariable ('$' :: cs) = true := by
  simp [isVariable, bareVariable, dropLeading, dropEllipses]

/-- Its name is what stands behind the sign. -/
theorem variableName_sigil (h : w.head? ≠ some '$') : variableName ('$' :: w) = w := by
  have hbare : bareVariable ('$' :: w) = '$' :: w := by
    simp [bareVariable, dropLeading, dropEllipses]
  rw [variableName, hbare]
  cases w with
  | nil => rfl
  | cons c w =>
    have hc : c ≠ '$' := fun heq => h (congrArg some heq)
    simp [dropLeading, hc]

/-- The sign does not part it from its name. -/
theorem isWord_sigil (h : ∀ c ∈ w, isBlank c = false) : IsWord ('$' :: w) :=
  isWord_cons (by decide) h

/-! ## Contents that are read back -/

section Contents

variable {var : Option String}

/-- The words of a parameter are its types and its variable. -/
theorem fieldWords_types (name description : String) (ts : List String) (var : Option String) :
    fieldWords { name, description, types := some ts, varName := var } =
      typeWords ts ++ var.toList.map (fun v => '$' :: v.toList) := by
  simp [fieldWords]

/-- A parameter comes back, if neither its types nor its description begin like a variable. -/
theorem parameter_content (h : trim description.toList = description.toList) (hts : TypesFit ts)
    (hvar : ∀ v ∈ var, VariableFits v) (hfirst : ∀ type ∈ ts.head?, isVariable type.toList = false)
    (hempty : var = none → ts = [] → description = "")
    (hnext : var = none → isVariable (nextWord description.toList).1 = false) :
    parameter name (content { name, description, types := some ts, varName := var }) =
      { name, description, types := some ts, varName := var } := by
  rw [content, fieldWords_types]
  have hvariable : ∀ v, var = some v →
      nextWord (joinWith ' ' (('$' :: v.toList) :: lastWords description)) =
        ('$' :: v.toList, description.toList) :=
    fun v hv => nextWord_word (isWord_sigil (hvar v hv).1) h
  -- Four layouts: types or none, each with a variable or without.
  cases ts with
  | nil =>
    cases var with
    | none =>
      -- Neither types nor variable: the description has to be empty, or its first word would be a
      -- type.
      obtain rfl := hempty rfl rfl
      have hwords : typeWords [] ++ (none : Option String).toList.map (fun v => '$' :: v.toList) ++
          lastWords "" = [] := rfl
      rw [hwords, parameter, joinWith, nextWord_nil]
      rfl
    | some v =>
      have hwords : typeWords [] ++ (some v).toList.map (fun v => '$' :: v.toList) ++
          lastWords description = ('$' :: v.toList) :: lastWords description := rfl
      rw [hwords, parameter, hvariable v rfl]
      simp [isVariable_sigil, variableName_sigil (hvar v rfl).2]
  | cons type ts =>
    have hword := isWord_types (List.cons_ne_nil type ts) hts
    have hsplit := splitTypes_types (List.cons_ne_nil type ts) hts
    have hplain := (isVariable_types ts).trans (hfirst type rfl)
    cases var with
    | none =>
      have hwords : typeWords (type :: ts) ++ (none : Option String).toList.map
          (fun v => '$' :: v.toList) ++ lastWords description =
          joinWith '|' ((type :: ts).map String.toList) :: lastWords description := rfl
      rw [hwords, parameter, nextWord_word hword h]
      simp only [hplain, hnext rfl, hsplit, strings_toList]
      simp
    -- With both, the word after the types is looked at twice: as no variable in the first place and
    -- as the variable in the second.
    | some v =>
      have hwords : typeWords (type :: ts) ++ (some v).toList.map (fun v => '$' :: v.toList) ++
          lastWords description = joinWith '|' ((type :: ts).map String.toList) ::
            ('$' :: v.toList) :: lastWords description := rfl
      have hsolid : ∀ p ∈ ('$' :: v.toList) :: lastWords description, Solid p :=
        List.forall_mem_cons.2 ⟨(isWord_sigil (hvar v rfl).1).solid, solid_lastWords h⟩
      rw [hwords, parameter, nextWord_joinWith hword hsolid]
      simp only [hplain, hvariable v rfl, hsplit, strings_toList, isVariable_sigil,
        variableName_sigil (hvar v rfl).2]
      simp

/-- A tag with one field is written as that and its description. -/
theorem content_word {t : Tag} (h : t.fieldWords = [w]) :
    t.content = joinWith ' ' (w :: lastWords t.description) := by
  rw [content, h]
  rfl

/-- A tag without fields is written as its description. -/
theorem content_plain {t : Tag} (h : t.fieldWords = []) : t.content = t.description.toList := by
  rw [content, h, List.nil_append, joinWith_lastWords]

/-- A value comes back, if a description needs types in front of it. -/
theorem ofContent_value (hshape : shapeOf name = .value)
    (h : trim description.toList = description.toList) (hts : TypesFit ts)
    (hnone : ts = [] → description = "") :
    ofContent name (content { name, description, types := some ts }) =
      { name, description, types := some ts } := by
  unfold ofContent
  simp only [hshape]
  by_cases hempty : ts = []
  · subst hempty
    obtain rfl := hnone rfl
    have hwords : fieldWords { name, description := "", types := some [] } = [] := rfl
    rw [content_plain hwords, String.toList_empty, nextWord_nil]
    rfl
  · have hwords : fieldWords { name, description, types := some ts } =
        [joinWith '|' (ts.map String.toList)] := by
      simp [fieldWords, typeWords, hempty]
    rw [content_word hwords, nextWord_word (isWord_types hempty hts) h]
    simp [splitTypes_types hempty hts, strings_toList]

/-- A link is the first word. -/
theorem ofContent_of_link (hshape : shapeOf name = .link) (cs : List Char) :
    ofContent name cs =
      { name, description := (wordField cs).2, link := (wordField cs).1 } := by
  unfold ofContent wordField
  simp only [hshape]
  split <;> rfl

theorem ofContent_of_reference (hshape : shapeOf name = .reference) (cs : List Char) :
    ofContent name cs =
      { name, description := (wordField cs).2, refers := (wordField cs).1 } := by
  unfold ofContent wordField
  simp only [hshape]
  split <;> rfl

/-- A link is written in front of the description. -/
theorem content_link (name description : String) (link : Option String) :
    content { name, description, link } =
      joinWith ' ' (link.toList.map String.toList ++ lastWords description) := by
  simp [content, fieldWords, typeWords]

theorem content_reference (name description : String) (refers : Option String) :
    content { name, description, refers } =
      joinWith ' ' (refers.toList.map String.toList ++ lastWords description) := by
  simp [content, fieldWords, typeWords]

/-- A version comes back; without one the description begins with no digit. -/
theorem ofContent_version {version : Option String} (hshape : shapeOf name = .version)
    (h : trim description.toList = description.toList) (hversion : ∀ v ∈ version, VersionFits v)
    (hnone : version = none → ∀ c ∈ description.toList.head?, isDecimalDigit c = false) :
    ofContent name (content { name, description, version }) = { name, description, version } := by
  unfold ofContent
  simp only [hshape]
  -- Without a version the description is read whole, provided it does not start with a digit.
  cases version with
  | none =>
    have hwords : fieldWords { name, description } = [] := rfl
    rw [content_plain hwords]
    cases hchars : description.toList with
    | nil => simp [← hchars]
    | cons c rest =>
      have hdigit : isDecimalDigit c = false := hnone rfl c (by rw [hchars]; rfl)
      simp [hdigit, ← hchars]
  | some v =>
    obtain ⟨hword, hdigit⟩ := hversion v rfl
    have hwords : fieldWords { name, description, version := some v } = [v.toList] := rfl
    have hnext := nextWord_word hword h
    have hhead : (joinWith ' ' (v.toList :: lastWords description)).head? = v.toList.head? :=
      head?_joinWith_cons hword.ne_nil _
    rw [content_word hwords]
    -- Only the first character decides whether a version is read; the words behind it are
    -- forgotten.
    generalize joinWith ' ' (v.toList :: lastWords description) = cs at hnext hhead
    cases cs with
    | nil => exact absurd (List.head?_eq_none_iff.1 hhead.symm) hword.ne_nil
    | cons c cs =>
      have hc := hdigit c hhead.symm
      simp only [hc, hnext]
      simp

/-- What is written is read back, if the fields fit. -/
theorem ofContent_content (h : trim t.description.toList = t.description.toList) (hfits : t.Fits) :
    ofContent t.name t.content = t := by
  obtain ⟨name, description, types, link, var, refers, version⟩ := t
  unfold Fits at hfits
  simp only at h hfits ⊢
  -- Each shape has its own round trip; `Fits` says of the shape which fields are set.
  cases hshape : shapeOf name with
  | value =>
    simp only [hshape] at hfits
    obtain ⟨ts, ht, hts, hnone⟩ := hfits
    cases ht
    exact ofContent_value hshape h hts hnone
  | parameter =>
    simp only [hshape] at hfits
    obtain ⟨ts, var, ht, hts, hvar, hfirst, hempty, hnext⟩ := hfits
    cases ht
    simp only [ofContent, hshape]
    exact parameter_content h hts hvar hfirst hempty hnext
  | link =>
    simp only [hshape] at hfits
    obtain ⟨link, ht, hlink, hnone⟩ := hfits
    cases ht
    rw [ofContent_of_link hshape, content_link, (wordField_eq_iff h).2 ⟨hlink, hnone⟩]
  | reference =>
    simp only [hshape] at hfits
    obtain ⟨refers, ht, hrefers, hnone⟩ := hfits
    cases ht
    rw [ofContent_of_reference hshape, content_reference, (wordField_eq_iff h).2 ⟨hrefers, hnone⟩]
  | version =>
    simp only [hshape] at hfits
    obtain ⟨version, ht, hversion, hnone⟩ := hfits
    cases ht
    exact ofContent_version hshape h hversion hnone
  | text =>
    simp only [hshape] at hfits
    cases hfits
    have hwords : fieldWords { name, description } = [] := rfl
    rw [ofContent, content_plain hwords]
    simp [hshape]

/-- Types that fit are written as a word, or not at all. -/
theorem isWord_of_mem_typeWords (h : TypesFit ts) (hw : w ∈ typeWords ts) : IsWord w := by
  unfold typeWords at hw
  split at hw
  · cases hw
  · next hempty =>
    obtain rfl := List.mem_singleton.1 hw
    exact isWord_types hempty h

theorem isWord_of_mem_field {field : Option String} (h : ∀ f ∈ field, IsWord f.toList)
    (hw : w ∈ field.toList.map String.toList) : IsWord w := by
  obtain ⟨f, hf, rfl⟩ := List.mem_map.1 hw
  exact h f (Option.mem_toList.1 hf)

/-- The fields of a tag are words. -/
theorem isWord_of_mem_fieldWords (hfits : t.Fits) (hw : w ∈ t.fieldWords) : IsWord w := by
  obtain ⟨name, description, types, link, var, refers, version⟩ := t
  unfold Fits at hfits
  simp only at hfits
  -- The words of the fields are the types, the variable or the one word a shape has.
  cases hshape : shapeOf name with
  | value =>
    simp only [hshape] at hfits
    obtain ⟨ts, ht, hts, -⟩ := hfits
    cases ht
    exact isWord_of_mem_typeWords hts (by simpa [fieldWords] using hw)
  | parameter =>
    simp only [hshape] at hfits
    obtain ⟨ts, var, ht, hts, hvar, -⟩ := hfits
    cases ht
    rw [fieldWords_types, List.mem_append] at hw
    rcases hw with hw | hw
    · exact isWord_of_mem_typeWords hts hw
    · obtain ⟨v, hv, rfl⟩ := List.mem_map.1 hw
      exact isWord_sigil (hvar v (Option.mem_toList.1 hv)).1
  | link =>
    simp only [hshape] at hfits
    obtain ⟨link, ht, hlink, -⟩ := hfits
    cases ht
    exact isWord_of_mem_field hlink (by simpa [fieldWords, typeWords] using hw)
  | reference =>
    simp only [hshape] at hfits
    obtain ⟨refers, ht, hrefers, -⟩ := hfits
    cases ht
    exact isWord_of_mem_field hrefers (by simpa [fieldWords, typeWords] using hw)
  | version =>
    simp only [hshape] at hfits
    obtain ⟨version, ht, hversion, -⟩ := hfits
    cases ht
    exact isWord_of_mem_field (fun v hv => (hversion v hv).1) (by simpa [fieldWords, typeWords] using hw)
  | text =>
    simp only [hshape] at hfits
    cases hfits
    cases hw

end Contents

/-! ## No less would do -/

/-- The types of a word have no blanks to trim. -/
theorem splitTypes_of_no_blank (hw : ∀ c ∈ w, isBlank c = false) :
    splitTypes w = (splitOn '|' w).filter (!·.isEmpty) := by
  have htrim : (splitOn '|' w).map trim = splitOn '|' w := by
    refine (List.map_congr_left fun p hp => ?_).trans (List.map_id _)
    by_cases hempty : p = []
    · rw [hempty]
      rfl
    · have hword : IsWord p := ⟨hempty, fun c hc => hw c (mem_of_mem_splitOn hp hc).1⟩
      exact hword.solid.trim_eq
  rw [splitTypes, htrim]

/-- Types that are read fit. -/
theorem typesFit_splitTypes (hw : ∀ c ∈ w, isBlank c = false) :
    TypesFit (strings (splitTypes w)) := by
  intro type htype
  obtain ⟨p, hpiece, rfl⟩ := List.mem_map.1 htype
  rw [splitTypes_of_no_blank hw] at hpiece
  obtain ⟨hp, hne⟩ := List.mem_filter.1 hpiece
  rw [String.toList_ofList]
  have hchars : ∀ c ∈ p, c ∈ w ∧ c ≠ '|' := fun c => mem_of_mem_splitOn hp
  exact ⟨⟨by simpa using hne, fun c hc => hw c (hchars c hc).1⟩, fun hbar => (hchars _ hbar).2 rfl⟩

/-- Without its dots a text is shorter. -/
theorem dropEllipses_sublist (cs : List Char) : (dropEllipses cs).Sublist cs := by
  induction cs using dropEllipses.induct with
  | case1 cs ih => exact ((ih.cons _).cons _).cons _
  | case2 cs hstop => rw [dropEllipses.eq_2 _ hstop]

/-- A variable that is read fits. -/
theorem variableFits_variableName (hw : ∀ c ∈ w, isBlank c = false) :
    VariableFits (.ofList (variableName w)) := by
  have hsublist : (variableName w).Sublist w :=
    (List.dropWhile_sublist _).trans ((dropEllipses_sublist _).trans (List.dropWhile_sublist _))
  rw [VariableFits, String.toList_ofList]
  refine ⟨fun c hc => hw c (hsublist.subset hc), fun hsigil => ?_⟩
  have hnot := List.head?_dropWhile_not (· == '$') (bareVariable w)
  unfold variableName dropLeading at hsigil
  rw [hsigil] at hnot
  cases hnot

/-- A description that is all that is written is not what remains behind its first word. -/
theorem eq_empty_of_nextWord (h : trim description.toList = description.toList)
    (hrest : String.ofList (nextWord description.toList).2 = description) : description = "" := by
  by_contra hne
  have hsnd := congrArg String.toList hrest
  rw [String.toList_ofList] at hsnd
  exact nextWord_snd_ne (solid_of_trim h (by simpa using hne)) hsnd

/-- The first word begins where no blank is. -/
theorem nextWord_cons {c : Char} (hc : isBlank c = false) :
    (nextWord (c :: cs)).1 = c :: cs.takeWhile (!isBlank ·) := by
  simp [nextWord, trimStart, hc]

/-- Types are read as they were written, whatever fits behind them. -/
theorem nextWord_types {type : String} {var : Option String}
    (h : trim description.toList = description.toList) (hts : TypesFit (type :: ts))
    (hvar : ∀ v ∈ var, VariableFits v) :
    (nextWord (content { name, description, types := some (type :: ts), varName := var })).1 =
      joinWith '|' ((type :: ts).map String.toList) := by
  have hwords : fieldWords { name, description, types := some (type :: ts), varName := var } ++
      lastWords description = joinWith '|' ((type :: ts).map String.toList) ::
        (var.toList.map (fun v => '$' :: v.toList) ++ lastWords description) := by
    rw [fieldWords_types]
    rfl
  have hsolid : ∀ p ∈ var.toList.map (fun v => '$' :: v.toList) ++ lastWords description,
      Solid p := by
    intro p hp
    rcases List.mem_append.1 hp with hp | hp
    · obtain ⟨v, hv, rfl⟩ := List.mem_map.1 hp
      exact (isWord_sigil (hvar v (Option.mem_toList.1 hv)).1).solid
    · exact solid_lastWords h p hp
  rw [content, hwords, nextWord_joinWith (isWord_types (List.cons_ne_nil type ts) hts) hsolid]

/-- Where the word in front is no variable, it holds the types, and the first type is none. -/
theorem isVariable_head_types {var : Option String}
    (h : trim description.toList = description.toList) (hts : TypesFit ts)
    (hvar : ∀ v ∈ var, VariableFits v)
    (hfirst : ¬ isVariable (nextWord
      (content { name, description, types := some ts, varName := var })).1 = true) :
    ∀ type ∈ ts.head?, isVariable type.toList = false := by
  intro type htype
  obtain ⟨rest, rfl⟩ := List.head?_eq_some_iff.1 htype
  rw [nextWord_types h hts hvar, isVariable_types] at hfirst
  exact Bool.eq_false_iff.2 hfirst

/-- A parameter that comes back fits. -/
theorem fits_parameter {types : Option (List String)} {link var refers version : Option String}
    (hshape : shapeOf name = .parameter) (h : trim description.toList = description.toList)
    (hread : parameter name (content ⟨name, description, types, link, var, refers, version⟩) =
      ⟨name, description, types, link, var, refers, version⟩) :
    Fits ⟨name, description, types, link, var, refers, version⟩ := by
  unfold Fits
  unfold parameter at hread
  simp only [hshape] at hread ⊢
  have hname : ∀ {cs : List Char}, some (String.ofList (variableName (nextWord cs).1)) = var →
      (∀ v ∈ var, VariableFits v) ∧ var ≠ none := by
    rintro cs rfl
    exact ⟨fun v hv => Option.some.inj hv ▸ variableFits_variableName fun c => no_blank_of_mem_nextWord,
      Option.some_ne_none _⟩
  have hfit : TypesFit (strings (splitTypes (nextWord (content
      ⟨name, description, types, link, var, refers, version⟩)).1)) :=
    typesFit_splitTypes fun c hc => no_blank_of_mem_nextWord hc
  split at hread
  · -- The variable stands first.
    simp only [Tag.mk.injEq] at hread
    obtain ⟨-, -, rfl, rfl, hread, rfl, rfl⟩ := hread
    obtain ⟨hvar, hsome⟩ := hname hread
    exact ⟨[], var, rfl, nofun, hvar, nofun, (absurd · hsome), (absurd · hsome)⟩
  next hfirst =>
  split at hread
  · -- It stands behind the types.
    simp only [Tag.mk.injEq] at hread
    obtain ⟨-, -, htypes, rfl, hread, rfl, rfl⟩ := hread
    obtain ⟨hvar, hsome⟩ := hname hread
    cases types with
    | none => cases htypes
    | some ts =>
      rw [Option.some.inj htypes] at hfit
      exact ⟨ts, var, rfl, hfit, hvar, isVariable_head_types h hfit hvar hfirst, (absurd · hsome),
        (absurd · hsome)⟩
  · -- It stands nowhere.
    next hsecond =>
    simp only [Tag.mk.injEq] at hread
    obtain ⟨-, hrest, htypes, rfl, rfl, rfl, rfl⟩ := hread
    cases types with
    | none => cases htypes
    | some ts =>
      rw [Option.some.inj htypes] at hfit
      have hnone : ∀ v ∈ (none : Option String), VariableFits v := nofun
      refine ⟨ts, none, rfl, hfit, hnone, isVariable_head_types h hfit hnone hfirst, ?_, ?_⟩
      · rintro - rfl
        have hwords : fieldWords { name, description, types := some [] } = [] := rfl
        rw [content_plain hwords] at hrest
        exact eq_empty_of_nextWord h hrest
      · rintro -
        rw [← hrest, String.toList_ofList]
        exact Bool.eq_false_iff.2 hsecond

theorem fits_value {types : Option (List String)} {link var refers version : Option String}
    (hshape : shapeOf name = .value) (h : trim description.toList = description.toList)
    (hread : ofContent name (content ⟨name, description, types, link, var, refers, version⟩) =
      ⟨name, description, types, link, var, refers, version⟩) :
    Fits ⟨name, description, types, link, var, refers, version⟩ := by
  unfold ofContent at hread
  unfold Fits
  simp only [hshape, Tag.mk.injEq] at hread ⊢
  obtain ⟨-, hrest, htypes, rfl, rfl, rfl, rfl⟩ := hread
  cases types with
  | none => cases htypes
  | some ts =>
    have hts := Option.some.inj htypes
    refine ⟨ts, by simp, ?_, ?_⟩
    · rw [← hts]
      exact typesFit_splitTypes fun c hc => no_blank_of_mem_nextWord hc
    · rintro rfl
      have hwords : fieldWords { name, description, types := some [] } = [] := rfl
      rw [content_plain hwords] at hrest
      exact eq_empty_of_nextWord h hrest

theorem fits_link {types : Option (List String)} {link var refers version : Option String}
    (hshape : shapeOf name = .link) (h : trim description.toList = description.toList)
    (hread : ofContent name (content ⟨name, description, types, link, var, refers, version⟩) =
      ⟨name, description, types, link, var, refers, version⟩) :
    Fits ⟨name, description, types, link, var, refers, version⟩ := by
  unfold Fits
  rw [ofContent_of_link hshape] at hread
  simp only [hshape, Tag.mk.injEq] at hread ⊢
  obtain ⟨-, hrest, rfl, hlink, rfl, rfl, rfl⟩ := hread
  rw [content_link] at hrest hlink
  exact ⟨link, by simp, (wordField_eq_iff h).1 (Prod.ext hlink hrest)⟩

theorem fits_reference {types : Option (List String)} {link var refers version : Option String}
    (hshape : shapeOf name = .reference) (h : trim description.toList = description.toList)
    (hread : ofContent name (content ⟨name, description, types, link, var, refers, version⟩) =
      ⟨name, description, types, link, var, refers, version⟩) :
    Fits ⟨name, description, types, link, var, refers, version⟩ := by
  unfold Fits
  rw [ofContent_of_reference hshape] at hread
  simp only [hshape, Tag.mk.injEq] at hread ⊢
  obtain ⟨-, hrest, rfl, rfl, rfl, hrefers, rfl⟩ := hread
  rw [content_reference] at hrest hrefers
  exact ⟨refers, by simp, (wordField_eq_iff h).1 (Prod.ext hrefers hrest)⟩

/-- A version that was read is a word behind a digit, whatever follows it. -/
theorem versionFits_nextWord {c : Char} (hdigit : isDecimalDigit c = true) (cs : List Char) :
    VersionFits (.ofList (nextWord (c :: cs)).1) := by
  have hfirst : (nextWord (c :: cs)).1 = c :: cs.takeWhile (!isBlank ·) :=
    nextWord_cons (isBlank_of_isDecimalDigit hdigit)
  have hword : IsWord (nextWord (c :: cs)).1 :=
    isWord_of_not_isEmpty (by rw [hfirst]; exact Bool.false_ne_true)
  rw [VersionFits, String.toList_ofList]
  refine ⟨hword, fun d hd => ?_⟩
  rw [hfirst] at hd
  obtain rfl := Option.some.inj hd
  exact hdigit

theorem fits_version {types : Option (List String)} {link var refers version : Option String}
    (hshape : shapeOf name = .version)
    (hread : ofContent name (content ⟨name, description, types, link, var, refers, version⟩) =
      ⟨name, description, types, link, var, refers, version⟩) :
    Fits ⟨name, description, types, link, var, refers, version⟩ := by
  have hwords : fieldWords { name, description } = [] := rfl
  unfold ofContent at hread
  unfold Fits
  simp only [hshape] at hread ⊢
  -- A version was read just if the content starts with a digit; `hread` fixes every field in each
  -- case.
  split at hread
  · next c rest hcontent =>
    split at hread
    · next hdigit =>
      simp only [Tag.mk.injEq] at hread
      obtain ⟨-, -, rfl, rfl, rfl, rfl, hversion⟩ := hread
      refine ⟨version, rfl, ?_, ?_⟩
      · intro v hv
        rw [← Option.some.inj (hversion.trans hv), hcontent]
        exact versionFits_nextWord hdigit rest
      · rintro rfl
        cases hversion
    · next hdigit =>
      simp only [Tag.mk.injEq] at hread
      obtain ⟨-, -, rfl, rfl, rfl, rfl, rfl⟩ := hread
      rw [content_plain hwords] at hcontent
      refine ⟨none, rfl, nofun, fun _ d hd => ?_⟩
      simp only at hcontent
      rw [hcontent] at hd
      obtain rfl := Option.some.inj hd
      exact Bool.eq_false_iff.2 hdigit
  · next hcontent =>
    simp only [Tag.mk.injEq] at hread
    obtain ⟨-, -, rfl, rfl, rfl, rfl, rfl⟩ := hread
    rw [content_plain hwords] at hcontent
    refine ⟨none, rfl, nofun, fun _ d hd => ?_⟩
    simp only at hcontent
    rw [hcontent] at hd
    cases hd

/-- A tag whose content is read back has fields that fit. -/
theorem fits_of_ofContent_content (h : trim t.description.toList = t.description.toList)
    (hread : ofContent t.name t.content = t) : t.Fits := by
  obtain ⟨name, description, types, link, var, refers, version⟩ := t
  simp only at h hread
  cases hshape : shapeOf name with
  | value => exact fits_value hshape h hread
  | parameter =>
    simp only [ofContent, hshape] at hread
    exact fits_parameter hshape h hread
  | link => exact fits_link hshape h hread
  | reference => exact fits_reference hshape h hread
  | version => exact fits_version hshape hread
  | text =>
    unfold ofContent at hread
    unfold Fits
    simp only [hshape, Tag.mk.injEq] at hread ⊢
    obtain ⟨-, -, rfl, rfl, rfl, rfl, rfl⟩ := hread
    simp

/-- The content of a tag is read back just if its fields fit. -/
theorem ofContent_content_iff (h : trim t.description.toList = t.description.toList) :
    ofContent t.name t.content = t ↔ t.Fits :=
  ⟨fits_of_ofContent_content h, ofContent_content h⟩

end ApiCatalog.Tag
