import ApiCatalog.Docblock.Interpret
import ApiCatalog.Proofs.Docblock.Tag
import Mathlib.Data.List.Forall2

/-!
# Tags and the lines they stand on

Every line that starts a tag opens a block, and the lines behind it up to the next tag continue
that block (`splitTags_eq`). A block is a tag if a blank or nothing stands behind its name, and then
the tag has that name, whatever follows (`interpret_tags`). A block whose name runs into another
character is no tag: it is dropped with all of its lines.
-/

namespace ApiCatalog

open Text

namespace Docblock

/-- A line that starts a tag, and the lines that continue it. -/
structure Block where
  line : List Char
  more : List (List Char)
deriving DecidableEq

namespace Block

/-- The lines as one text. -/
def text (b : Block) : List Char := joinWith '\n' (b.line :: b.more.map trim)

/-- The name of the tag: the letter behind the `@` and the longest run of name characters. -/
def name (b : Block) : String :=
  .ofList ((b.line.drop 1).take 1 ++ (b.line.drop 2).takeWhile Tag.isNameChar)

/-- What stands behind the name on its line. -/
def behind (b : Block) : List Char := (b.line.drop 2).dropWhile Tag.isNameChar

/-- What stands behind the name. -/
def content (b : Block) : List Char := trim (joinWith '\n' (b.behind :: b.more.map trim))

/-- A blank or nothing stands behind the name. -/
def isTag (b : Block) : Bool := b.behind.head?.all isBlank

end Block

/-- The blocks of these lines. -/
def blocksOf : List (List Char) → List Block
  | [] => []
  | line :: rest =>
    if startsTag line then ⟨line, rest.takeWhile (!startsTag ·)⟩ :: blocksOf rest
    else blocksOf rest

variable {ls : List (List Char)} {b : Block}

theorem splitTags_eq (ls : List (List Char)) :
    splitTags ls = (ls.takeWhile (!startsTag ·),
      (blocksOf ls).map fun b => b.line :: b.more.map trim) := by
  induction ls with
  | nil => rfl
  | cons line rest ih =>
    rw [splitTags, ih, blocksOf]
    cases hline : startsTag line with
    | true => simp [hline]
    | false => simp [hline]

theorem map_line_blocksOf (ls : List (List Char)) :
    (blocksOf ls).map Block.line = ls.filter startsTag := by
  induction ls with
  | nil => rfl
  | cons line rest ih =>
    rw [blocksOf]
    cases hline : startsTag line with
    | true => simp [hline, ih]
    | false => simp [hline, ih]

theorem startsTag_of_mem_blocksOf (h : b ∈ blocksOf ls) : startsTag b.line = true := by
  have hline := List.mem_map_of_mem (f := Block.line) h
  rw [map_line_blocksOf] at hline
  exact (List.mem_filter.1 hline).2

/-! ## Reading a block -/

/-- A line that starts a tag is a sign, a name, and what cannot continue the name. -/
theorem line_eq (h : startsTag b.line = true) :
    Tag.IsTagName b.name ∧ b.line = '@' :: (b.name.toList ++ b.behind) ∧
      ∀ c ∈ b.behind.head?, Tag.isNameChar c = false := by
  obtain ⟨c, rest, hline, hc⟩ : ∃ c rest, b.line = '@' :: c :: rest ∧ c.isAlpha = true := by
    unfold startsTag at h
    split at h
    · next c rest hline => exact ⟨c, rest, hline, h⟩
    · cases h
  have hname : b.name.toList = c :: rest.takeWhile Tag.isNameChar := by
    rw [Block.name, hline, String.toList_ofList]
    rfl
  have hbehind : b.behind = rest.dropWhile Tag.isNameChar := by
    rw [Block.behind, hline]
    rfl
  refine ⟨⟨c, _, hname, hc, fun d hd => List.mem_takeWhile_imp hd⟩, ?_, fun d hd => ?_⟩
  · rw [hline, hname, hbehind, List.cons_append, List.takeWhile_append_dropWhile]
  · have hnot := List.head?_dropWhile_not Tag.isNameChar rest
    rw [← hbehind, hd] at hnot
    exact hnot

/-- A block that is a tag is the tag of its name and its content. -/
theorem ofBlock?_text (h : startsTag b.line = true) :
    Tag.ofBlock? b.text = if b.isTag then some (Tag.ofContent b.name b.content) else none := by
  obtain ⟨hname, hline, hbehind⟩ := line_eq h
  have htext : b.text =
      '@' :: (b.name.toList ++ joinWith '\n' (b.behind :: b.more.map trim)) := by
    rw [Block.text]
    nth_rewrite 1 [hline]
    rw [← List.cons_append, joinWith_append_cons, List.cons_append]
  -- A further line stands behind a line end, which is a blank and no part of a name.
  have hends : (joinWith '\n' (b.behind :: b.more.map trim)).head? = b.behind.head? ∨
      b.behind = [] ∧ (joinWith '\n' (b.behind :: b.more.map trim)).head? = some '\n' := by
    cases hchars : b.behind with
    | cons d after => exact .inl (head?_joinWith_cons (by simp) _)
    | nil =>
      cases b.more with
      | nil => exact .inl rfl
      | cons next more => exact .inr ⟨rfl, rfl⟩
  rcases hends with hhead | ⟨hnone, hhead⟩
  · rw [htext, Tag.ofBlock?_name hname (by rw [hhead]; exact hbehind), hhead]
    rfl
  · have hbreak : Tag.isNameChar '\n' = false := by decide +kernel
    have hblank : isBlank '\n' = true := by decide
    rw [htext, Tag.ofBlock?_name hname (by rw [hhead]; rintro c ⟨⟩; exact hbreak), hhead]
    simp [Block.isTag, Block.content, hnone, hblank]

/-- The lines in front of the first tag are the free text, and the tags are those of the blocks. -/
theorem ofLines_eq (ls : List (List Char)) :
    ofLines ls = {
      summary := .ofList (joinWith '\n'
        (takeSummary ((ls.takeWhile (!startsTag ·)).dropWhile isBlankLine)).1)
      description := .ofList (trim (joinWith '\n'
        (takeSummary ((ls.takeWhile (!startsTag ·)).dropWhile isBlankLine)).2))
      tags := (blocksOf ls).filterMap fun b => Tag.ofBlock? b.text } := by
  rw [ofLines, splitTags_eq]
  simp only [List.filterMap_map]
  rfl

theorem tags_interpret (raw : String) :
    (interpret raw).tags =
      (blocksOf (cleanLines raw.toList)).filterMap fun b => Tag.ofBlock? b.text := by
  rw [interpret, ofLines_eq]

/-- Of the blocks, those that are tags are read. -/
theorem filterMap_blocksOf (ls : List (List Char)) :
    (blocksOf ls).filterMap (fun b => Tag.ofBlock? b.text) =
      ((blocksOf ls).filter Block.isTag).map fun b => Tag.ofContent b.name b.content :=
  calc (blocksOf ls).filterMap (fun b => Tag.ofBlock? b.text)
      = (blocksOf ls).filterMap fun b =>
          if b.isTag then some (Tag.ofContent b.name b.content) else none :=
        List.filterMap_congr fun b hb => ofBlock?_text (startsTag_of_mem_blocksOf hb)
    _ = ((blocksOf ls).filter Block.isTag).map fun b => Tag.ofContent b.name b.content := by
        rw [← List.filterMap_eq_map, List.filterMap_filter]
        rfl

end Docblock

/-! ## What a tag keeps -/

namespace Tag

variable {t : Tag} {name : String} {content : List Char}

/-- The tag has no fields. -/
def IsPlain (t : Tag) : Prop := t = { name := t.name, description := t.description }

/-- What of the content is not taken for a field is the description of the tag. -/
structure Keeps (name : String) (content : List Char) (t : Tag) : Prop where
  name : t.name = name
  description : t.description.toList <:+ content
  plain : t.IsPlain → t.description.toList = content

theorem keeps_plain (name : String) (content : List Char) :
    Keeps name content { name, description := .ofList content } :=
  ⟨rfl, by simp, fun _ => String.toList_ofList⟩

theorem keeps_field {rest : List Char} (hrest : rest <:+ content) (hname : t.name = name)
    (hdescription : t.description = .ofList rest) (hfield : ¬ t.IsPlain) : Keeps name content t :=
  ⟨hname, by rwa [hdescription, String.toList_ofList], fun hplain => absurd hplain hfield⟩

theorem keeps_parameter (h : trim content = content) :
    Keeps name content (parameter name content) := by
  have hfirst := nextWord_snd_suffix h
  have hsecond := (nextWord_snd_suffix (trim_nextWord_snd content)).trans hfirst
  simp only [parameter]
  split
  · exact keeps_field hfirst rfl rfl (by simp [IsPlain])
  · split
    · exact keeps_field hsecond rfl rfl (by simp [IsPlain])
    · exact keeps_field hfirst rfl rfl (by simp [IsPlain])

theorem keeps_ofContent (h : trim content = content) :
    Keeps name content (ofContent name content) := by
  have hplain := keeps_plain name content
  have hfirst := nextWord_snd_suffix h
  -- Each shape reads a field off the front or nothing at all; either way the words left are a
  -- suffix of the words read.
  cases hshape : shapeOf name with
  | value =>
    simp only [ofContent, hshape]
    exact keeps_field hfirst rfl rfl (by simp [IsPlain])
  | parameter =>
    simp only [ofContent, hshape]
    exact keeps_parameter h
  | link =>
    simp only [ofContent, hshape]
    split
    · exact hplain
    · exact keeps_field hfirst rfl rfl (by simp [IsPlain])
  | reference =>
    simp only [ofContent, hshape]
    split
    · exact hplain
    · exact keeps_field hfirst rfl rfl (by simp [IsPlain])
  | version =>
    simp only [ofContent, hshape]
    cases hcontent : content with
    | nil => exact keeps_plain name []
    | cons c rest =>
      rw [hcontent] at hplain hfirst
      simp only
      split
      · exact keeps_field hfirst rfl rfl (by simp [IsPlain])
      · exact hplain
  | text =>
    simp only [ofContent, hshape]
    exact hplain

end Tag

namespace Docblock

/-- The tag says what its block does: its name is the longest one behind the `@`, and it keeps what
stands behind that. -/
structure Block.Says (b : Block) (t : Tag) : Prop where
  name : Tag.IsTagName t.name
  line : b.line = '@' :: (t.name.toList ++ b.behind)
  longest : ∀ c ∈ b.behind.head?, Tag.isNameChar c = false
  description : t.description.toList <:+ b.content
  /-- Without any field, all of the content is the description. -/
  plain : t.IsPlain → t.description.toList = b.content

theorem says_ofContent {b : Block} (h : startsTag b.line = true) :
    b.Says (Tag.ofContent b.name b.content) := by
  obtain ⟨hname, hline, hbehind⟩ := line_eq h
  have hkeeps : Tag.Keeps b.name b.content _ := Tag.keeps_ofContent (trim_trim _)
  exact ⟨by rwa [hkeeps.name], by rwa [hkeeps.name], hbehind, hkeeps.description, hkeeps.plain⟩

/-- Each line that starts a tag opens a block, and each block with a blank or nothing behind its
name gives one tag, in the order of the lines and whatever else stands on them. So no line is lost
just if every block is a tag. -/
theorem interpret_tags (raw : String) :
    (blocksOf (cleanLines raw.toList)).map Block.line =
        (cleanLines raw.toList).filter startsTag ∧
      List.Forall₂ Block.Says ((blocksOf (cleanLines raw.toList)).filter Block.isTag)
        (interpret raw).tags ∧
      ((interpret raw).tags.length = ((cleanLines raw.toList).filter startsTag).length ↔
        ∀ b ∈ blocksOf (cleanLines raw.toList), b.isTag = true) := by
  refine ⟨map_line_blocksOf _, ?_, ?_⟩
  · rw [tags_interpret, filterMap_blocksOf, List.forall₂_map_right_iff, List.forall₂_same]
    exact fun b hb => says_ofContent (startsTag_of_mem_blocksOf (List.mem_filter.1 hb).1)
  · rw [tags_interpret, filterMap_blocksOf, List.length_map, ← map_line_blocksOf, List.length_map,
      List.length_filter_eq_length_iff]

/-- A comma behind the name of a tag drops its block. -/
theorem interpret_deprecated_comma :
    (cleanLines "/** @deprecated, use Bar. */".toList).filter startsTag =
        ["@deprecated, use Bar.".toList] ∧
      (interpret "/** @deprecated, use Bar. */").tags = [] := by
  decide +kernel

end Docblock

end ApiCatalog
