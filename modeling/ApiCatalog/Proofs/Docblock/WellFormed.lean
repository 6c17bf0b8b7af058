import ApiCatalog.Proofs.Docblock.Blocks

/-!
# Tags are well-formed

What a name allows in the fields of its tag holds of every tag that is read (`WellFormed`), and the
words behind the name are read once each: the fields take the first of them, `fieldCount` many, and
the description has the others (`words_ofContent`). All of it follows from what reading one word
off a text does to its words (`nextWord_cases`).
-/

namespace ApiCatalog

namespace Text

variable {cs w rest : List Char} {c : Char}

/-! ## Words -/

/-- The words of a text, the parts between its blanks. -/
def words (cs : List Char) : List (List Char) := (cs.splitOnP isBlank).filter (!·.isEmpty)

theorem words_nil : words [] = [] := by
  rw [words, List.splitOnP_nil]
  rfl

/-- A blank stands between words. -/
theorem words_append_blank (hc : isBlank c = true) (front back : List Char) :
    words (front ++ c :: back) = words front ++ words back := by
  rw [words, List.splitOnP_append_cons _ _ hc, List.filter_append, words, words]

theorem words_cons_blank (hc : isBlank c = true) (cs : List Char) : words (c :: cs) = words cs := by
  have hwords := words_append_blank hc [] cs
  rwa [words_nil] at hwords

theorem words_of_isWord (hw : IsWord w) : words w = [w] := by
  have hpieces : w.splitOnP isBlank = [w] :=
    List.splitOnP_eq_singleton fun c hc => by simp [hw.no_blank c hc]
  rw [words, hpieces]
  simp [hw.ne_nil]

/-- A word in front of a blank, or of nothing, is the first word. -/
theorem words_append (hw : IsWord w) (hrest : ∀ c ∈ rest.head?, isBlank c = true) :
    words (w ++ rest) = w :: words rest := by
  cases rest with
  | nil => rw [List.append_nil, words_of_isWord hw, words_nil]
  | cons c rest =>
    have hc : isBlank c = true := hrest c rfl
    rw [words_append_blank hc, words_of_isWord hw, words_cons_blank hc, List.singleton_append]

/-- Trimming takes no word off. -/
theorem words_trim (cs : List Char) : words (trim cs) = words cs :=
  apply_trim (fun _ cs hc => words_cons_blank hc cs) (fun c cs hc => by
    rw [words_append_blank hc, words_nil, List.append_nil]) cs

/-- Reading a word off a text leaves its other words. -/
theorem nextWord_cases (h : trim cs = cs) :
    cs = [] ∨ IsWord (nextWord cs).1 ∧ words cs = (nextWord cs).1 :: words (nextWord cs).2 := by
  by_cases hempty : cs = []
  · exact .inl hempty
  · have hsolid := solid_of_trim h hempty
    have hword := isWord_nextWord hsolid
    rw [nextWord_of_solid hsolid] at hword ⊢
    have hrest : ∀ c ∈ (cs.dropWhile (!isBlank ·)).head?, isBlank c = true := by
      intro c hc
      have hnot := List.head?_dropWhile_not (!isBlank ·) cs
      rw [hc] at hnot
      simpa using hnot
    refine .inr ⟨hword, ?_⟩
    calc words cs
        = words (cs.takeWhile (!isBlank ·) ++ cs.dropWhile (!isBlank ·)) := by
          rw [List.takeWhile_append_dropWhile]
      _ = cs.takeWhile (!isBlank ·) :: words (cs.dropWhile (!isBlank ·)) := words_append hword hrest
      _ = cs.takeWhile (!isBlank ·) :: words (trim (cs.dropWhile (!isBlank ·))) := by
          rw [words_trim]

/-- What follows the first word has all words but that one. -/
theorem words_nextWord_snd (h : trim cs = cs) : words (nextWord cs).2 = (words cs).drop 1 := by
  rcases nextWord_cases h with rfl | ⟨-, hwords⟩
  · rfl
  · rw [hwords, List.drop_one, List.tail_cons]

/-- The first word; nothing if there is none. -/
theorem nextWord_fst (h : trim cs = cs) : (nextWord cs).1 = (words cs).getD 0 [] := by
  rcases nextWord_cases h with rfl | ⟨-, hwords⟩
  · rfl
  · rw [hwords, List.getD_cons_zero]

end Text

namespace Tag

open Text

variable {name : String} {content : List Char} {shape : Shape}

/-! ## Names -/

/-- The names of the tags of a shape; all other tags hold text only. -/
def namesOf : Shape → List String
  | .value => ["return", "throws"]
  | .parameter => ["param", "var", "property", "property-read", "property-write"]
  | .link => ["link"]
  | .reference => ["see", "uses", "used-by"]
  | .version => ["version", "since", "deprecated"]
  | .text => []

theorem mem_namesOf_iff : name ∈ namesOf shape ↔ shape ≠ .text ∧ shapeOf name = shape := by
  -- Both directions are over the finite tables of names, by shape.
  constructor
  · intro hname
    have hnames : ∀ name ∈ namesOf shape, shape ≠ .text ∧ shapeOf name = shape := by
      cases shape with
      | value => decide
      | parameter => decide
      | link => decide
      | reference => decide
      | version => decide
      | text => decide
    exact hnames name hname
  · rintro ⟨hshape, rfl⟩
    have hnames : shapeOf name = .text ∨ name ∈ namesOf (shapeOf name) := by
      unfold shapeOf
      split_ifs with hvalue hparameter hlink hreference hversion
      · exact .inr hvalue
      · exact .inr hparameter
      · exact .inr (List.mem_singleton.2 hlink)
      · exact .inr hreference
      · exact .inr hversion
      · exact .inl rfl
    exact hnames.resolve_left hshape

/-! ## Fields -/

/-- Each field stands only where the name allows it, and is as it should be. -/
structure WellFormed (t : Tag) : Prop where
  types_isSome : t.types.isSome ↔ t.name ∈ namesOf .value ++ namesOf .parameter
  types : ∀ ts ∈ t.types, TypesFit ts
  varName : ∀ v ∈ t.varName, t.name ∈ namesOf .parameter ∧ VariableFits v
  link : ∀ l ∈ t.link, t.name ∈ namesOf .link ∧ IsWord l.toList
  refers : ∀ r ∈ t.refers, t.name ∈ namesOf .reference ∧ IsWord r.toList
  version : ∀ v ∈ t.version, t.name ∈ namesOf .version ∧ VersionFits v
  description : trim t.description.toList = t.description.toList

/-- A tag without types has a name that allows none. -/
theorem wellFormed_of_types_none {name description : String} {link refers version : Option String}
    (h : trim description.toList = description.toList)
    (hshape : shapeOf name ≠ .value ∧ shapeOf name ≠ .parameter)
    (hlink : ∀ l ∈ link, shapeOf name = .link ∧ IsWord l.toList)
    (hrefers : ∀ r ∈ refers, shapeOf name = .reference ∧ IsWord r.toList)
    (hversion : ∀ v ∈ version, shapeOf name = .version ∧ VersionFits v) :
    WellFormed { name, description, link, refers, version } where
  types_isSome := by simp [mem_namesOf_iff, hshape]
  types := by simp
  varName := by simp
  link l hl := (hlink l hl).imp_left fun hshape => mem_namesOf_iff.2 ⟨by decide, hshape⟩
  refers r hr := (hrefers r hr).imp_left fun hshape => mem_namesOf_iff.2 ⟨by decide, hshape⟩
  version v hv := (hversion v hv).imp_left fun hshape => mem_namesOf_iff.2 ⟨by decide, hshape⟩
  description := h

theorem wellFormed_plain {name description : String}
    (h : trim description.toList = description.toList)
    (hshape : shapeOf name ≠ .value ∧ shapeOf name ≠ .parameter) :
    WellFormed { name, description } :=
  wellFormed_of_types_none h hshape (by simp) (by simp) (by simp)

theorem wellFormed_of_types {name description : String} {ts : List String} {var : Option String}
    (h : trim description.toList = description.toList) (hts : TypesFit ts)
    (hname : shapeOf name = .value ∨ shapeOf name = .parameter)
    (hvar : ∀ v ∈ var, shapeOf name = .parameter ∧ VariableFits v) :
    WellFormed { name, description, types := some ts, varName := var } where
  types_isSome := by simpa [mem_namesOf_iff] using hname
  types := by simpa using hts
  varName v hv := (hvar v hv).imp_left fun hshape => mem_namesOf_iff.2 ⟨by decide, hshape⟩
  link := by simp
  refers := by simp
  version := by simp
  description := h

/-- What is left behind a word is trimmed. -/
theorem trim_afterWord (cs : List Char) :
    trim (String.ofList (nextWord cs).2).toList = (String.ofList (nextWord cs).2).toList := by
  rw [String.toList_ofList, trim_nextWord_snd]

theorem trim_wordField (h : trim content = content) :
    trim (wordField content).2.toList = (wordField content).2.toList := by
  unfold wordField
  split
  · rwa [String.toList_ofList]
  · exact trim_afterWord content

theorem wellFormed_parameter (hshape : shapeOf name = .parameter) (content : List Char) :
    (parameter name content).WellFormed := by
  have htypes : ∀ cs, TypesFit (strings (splitTypes (nextWord cs).1)) := fun cs =>
    typesFit_splitTypes fun c hc => no_blank_of_mem_nextWord hc
  have hvariable : ∀ cs, ∀ v ∈ some (String.ofList (variableName (nextWord cs).1)),
      shapeOf name = .parameter ∧ VariableFits v := by
    intro cs v hv
    rw [← Option.some.inj hv]
    exact ⟨hshape, variableFits_variableName fun c hc => no_blank_of_mem_nextWord hc⟩
  simp only [parameter]
  split
  · exact wellFormed_of_types (trim_afterWord _) (by simp [TypesFit]) (.inr hshape) (hvariable _)
  · split
    · exact wellFormed_of_types (trim_afterWord _) (htypes _) (.inr hshape) (hvariable _)
    · exact wellFormed_of_types (trim_afterWord _) (htypes _) (.inr hshape) (by simp)

/-- Every tag that is read is well-formed. -/
theorem wellFormed_ofContent (h : trim content = content) :
    (ofContent name content).WellFormed := by
  have hcontent : trim (String.ofList content).toList = (String.ofList content).toList := by
    rwa [String.toList_ofList]
  have hrest := trim_afterWord content
  -- By the shape of the name, as the content is read: a field is set only in the shape that has it.
  cases hshape : shapeOf name with
  | value =>
    simp only [ofContent, hshape]
    exact wellFormed_of_types hrest (typesFit_splitTypes fun c hc => no_blank_of_mem_nextWord hc)
      (.inl hshape) (by simp)
  | parameter =>
    simp only [ofContent, hshape]
    exact wellFormed_parameter hshape content
  | link =>
    rw [ofContent_of_link hshape]
    exact wellFormed_of_types_none (trim_wordField h) (by simp [hshape])
      (fun l hl => ⟨hshape, isWord_of_mem_wordField hl⟩) (by simp) (by simp)
  | reference =>
    rw [ofContent_of_reference hshape]
    exact wellFormed_of_types_none (trim_wordField h) (by simp [hshape]) (by simp)
      (fun r hr => ⟨hshape, isWord_of_mem_wordField hr⟩) (by simp)
  | version =>
    simp only [ofContent, hshape]
    cases content with
    | nil => exact wellFormed_plain hcontent (by simp [hshape])
    | cons c cs =>
      simp only
      split
      · next hdigit =>
        exact wellFormed_of_types_none hrest (by simp [hshape]) (by simp) (by simp)
          (by simpa using ⟨hshape, versionFits_nextWord hdigit cs⟩)
      · exact wellFormed_plain hcontent (by simp [hshape])
  | text =>
    simp only [ofContent, hshape]
    exact wellFormed_plain hcontent (by simp [hshape])

/-! ## Words of the content -/

/-- How many words a variable takes with the types in front of it. -/
def parameterCount (ws : List (List Char)) : Nat :=
  if isVariable (ws.getD 1 []) && !isVariable (ws.getD 0 []) then 2 else 1

/-- How many words behind the name are fields and not part of the description. -/
def fieldCount (name : String) (content : List Char) : Nat :=
  if name ∈ namesOf .parameter then parameterCount (words content)
  else if name ∈ namesOf .value ++ namesOf .link ++ namesOf .reference then 1
  else if name ∈ namesOf .version ∧ content.head?.any isDecimalDigit then 1
  else 0

/-- The shape of the tag decides how many words are fields. -/
theorem fieldCount_eq (name : String) (content : List Char) :
    fieldCount name content =
      match shapeOf name with
      | .parameter => parameterCount (words content)
      | .version => if content.head?.any isDecimalDigit then 1 else 0
      | .text => 0
      | _ => 1 := by
  simp only [fieldCount, List.mem_append, mem_namesOf_iff]
  cases shapeOf name with
  | value => rfl
  | parameter => rfl
  | link => rfl
  | reference => rfl
  | version => simp
  | text => simp

theorem words_parameter (h : trim content = content) :
    words (parameter name content).description.toList =
      (words content).drop (parameterCount (words content)) := by
  have hrest := trim_nextWord_snd content
  have hbehind : words (nextWord content).2 = (words content).drop 1 := words_nextWord_snd h
  have hbehind' : words (nextWord (nextWord content).2).2 = (words content).drop 2 := by
    rw [words_nextWord_snd hrest, hbehind, List.drop_drop]
  have hfirst : (nextWord content).1 = (words content).getD 0 [] := nextWord_fst h
  have hsecond : (nextWord (nextWord content).2).1 = (words content).getD 1 [] := by
    rw [nextWord_fst hrest, hbehind, List.getD_eq_getElem?_getD, List.getElem?_drop,
      List.getD_eq_getElem?_getD]
  simp only [parameter, parameterCount, ← hfirst, ← hsecond]
  split
  · next hvariable => simpa [hvariable] using hbehind
  · next hplain =>
    split
    · next hvariable => simpa [hplain, hvariable] using hbehind'
    · next hplain' => simpa [hplain'] using hbehind

theorem words_wordField (h : trim content = content) :
    words (wordField content).2.toList = (words content).drop 1 := by
  unfold wordField
  split
  · next hempty =>
    -- Without a first word there is no word to lose.
    rw [String.toList_ofList]
    rcases nextWord_cases h with rfl | ⟨hword, -⟩
    · rfl
    · exact absurd (List.isEmpty_iff.1 hempty) hword.ne_nil
  · rw [String.toList_ofList]
    exact words_nextWord_snd h

/-- No word of the content is lost or doubled: the description has those behind the fields. -/
theorem words_ofContent (h : trim content = content) :
    words (ofContent name content).description.toList =
      (words content).drop (fieldCount name content) := by
  have hbehind : words (nextWord content).2 = (words content).drop 1 := words_nextWord_snd h
  rw [fieldCount_eq]
  cases hshape : shapeOf name with
  | value => simpa only [ofContent, hshape, String.toList_ofList] using hbehind
  | parameter => simpa only [ofContent, hshape] using words_parameter h
  | link => simpa only [ofContent_of_link hshape] using words_wordField h
  | reference => simpa only [ofContent_of_reference hshape] using words_wordField h
  | version =>
    simp only [ofContent, hshape]
    split
    · next c cs =>
      split
      · next hdigit => simpa [hdigit] using hbehind
      · next hplain => simp [hplain]
    · simp
  | text => simp [ofContent, hshape]

example : fieldCount "param" "int|null &...$n how many".toList = 2 ∧
    fieldCount "param" "$n int how many".toList = 1 ∧
    fieldCount "since" "the first release".toList = 0 := by decide +kernel

end Tag

namespace Docblock

open Text

/-- The tag is what its block says it is: of that name, well-formed, and with the words of the
content behind the fields as its description. -/
structure Block.Reads (b : Block) (t : Tag) : Prop where
  name : t.name = b.name
  wellFormed : t.WellFormed
  words : Text.words t.description.toList =
    (Text.words b.content).drop (Tag.fieldCount b.name b.content)

/-- Every tag of every comment is well-formed, and no word behind its name is lost or doubled. -/
theorem interpret_well_formed (raw : String) :
    List.Forall₂ Block.Reads ((blocksOf (cleanLines raw.toList)).filter Block.isTag)
      (interpret raw).tags := by
  rw [tags_interpret, filterMap_blocksOf, List.forall₂_map_right_iff, List.forall₂_same]
  intro b _
  have hcontent : trim b.content = b.content := trim_trim _
  exact ⟨(Tag.keeps_ofContent hcontent).name, Tag.wellFormed_ofContent hcontent,
    Tag.words_ofContent hcontent⟩

end Docblock

end ApiCatalog
