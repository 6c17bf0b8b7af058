import ApiCatalog.Proofs.Docblock.Fields
import ApiCatalog.Proofs.Docblock.Lines

/-!
# Writing one tag

A tag is written as its name behind an `@`, its fields and its description. The first line of its
description stands on the line of the name, and further lines follow as they are
(`exists_textLines`). The whole is read back as the tag it came from (`ofBlock?_text`).
-/

namespace ApiCatalog.Tag

open Text Docblock

variable {t : Tag} {name : String} {rest : List Char}

/-! ## The text of a tag -/

/-- A name that a tag can have: an ASCII letter and characters of names. -/
def IsTagName (name : String) : Prop :=
  ∃ c rest, name.toList = c :: rest ∧ c.isAlpha = true ∧ ∀ d ∈ rest, isNameChar d = true

/-- The tag as it is written. -/
def text (t : Tag) : List Char :=
  joinWith ' ' (('@' :: t.name.toList) :: (t.fieldWords ++ lastWords t.description))

/-! ## Blocks that are read back -/

theorem isBlank_of_isAlpha {c : Char} (h : c.isAlpha = true) : isBlank c = false := by
  have hcode : (65 ≤ c.toNat ∧ c.toNat ≤ 90) ∨ (97 ≤ c.toNat ∧ c.toNat ≤ 122) := by
    rcases Bool.or_eq_true_iff.1 h with hupper | hlower
    · exact .inl (of_decide_eq_true hupper)
    · obtain ⟨hfirst, hlast⟩ := Bool.and_eq_true_iff.1 hlower
      exact .inr ⟨of_decide_eq_true hfirst, of_decide_eq_true hlast⟩
  have hletter : inRanges [(0x41, 0x5A), (0x61, 0x7A)] c = true := by simpa [inRanges] using hcode
  exact inRanges_of_disjoint (by decide) hletter

/-- No blank is part of a name. -/
theorem isBlank_of_isNameChar {c : Char} (h : isNameChar c = true) : isBlank c = false := by
  unfold isNameChar at h
  simp only [Bool.or_eq_true, beq_iff_eq] at h
  rcases h with ((h | rfl) | rfl) | rfl
  · exact isBlank_of_isWordChar h
  · decide
  · decide
  · decide

theorem isWord_sign (h : IsTagName name) : IsWord ('@' :: name.toList) := by
  obtain ⟨c, rest, hname, hc, hrest⟩ := h
  refine isWord_cons (by decide) ?_
  rw [hname]
  exact List.forall_mem_cons.2
    ⟨isBlank_of_isAlpha hc, fun d hd => isBlank_of_isNameChar (hrest d hd)⟩

/-- The name ends in front of the first character that cannot be part of it. What follows does not
matter unless that character is no blank. -/
theorem ofBlock?_name (hname : IsTagName name) (hrest : ∀ c ∈ rest.head?, isNameChar c = false) :
    ofBlock? ('@' :: (name.toList ++ rest)) =
      if rest.head?.all isBlank then some (ofContent name (trim rest)) else none := by
  have hword := isWord_sign hname
  obtain ⟨c, more, hchars, hc, hmore⟩ := hname
  have htrim : trim ('@' :: (name.toList ++ rest)) = '@' :: c :: (more ++ trimEnd rest) := by
    rw [← List.cons_append, hword.trim_append, hchars]
    rfl
  have hname : String.ofList (c :: more) = name := by rw [← hchars, String.ofList_toList]
  rw [ofBlock?, htrim, ← trim_trimEnd rest]
  simp only [hc, List.takeWhile_append_of_pos hmore, List.dropWhile_append_of_pos hmore]
  cases rest with
  | nil =>
    have hempty : trimEnd [] = [] := rfl
    simp [hempty, hname, trim, trimStart]
  | cons d after =>
    have hd : isNameChar d = false := hrest d rfl
    -- Trimming takes off the whole rest or keeps its first character.
    rcases trimEnd_cons_cases d after with hnothing | hsome
    · have hblank : isBlank d = true := by
        by_contra hsolid
        rw [trimEnd_cons (Bool.eq_false_iff.2 hsolid)] at hnothing
        cases hnothing
      have hempty : trimEnd [] = [] := rfl
      simp [hnothing, hblank, hname, hempty, trim, trimStart]
    · rw [hsome]
      cases hblank : isBlank d with
      | true => simp [hd, hblank, hname, trim_cons_blank]
      | false => simp [hd, hblank]

/-- A tag is read back from the block that it is written as. -/
theorem ofBlock?_text (hname : IsTagName t.name)
    (h : trim t.description.toList = t.description.toList) (hfits : t.Fits) :
    ofBlock? t.text = some t := by
  have hwords : ∀ p ∈ t.fieldWords ++ lastWords t.description, Solid p := by
    intro p hp
    rcases List.mem_append.1 hp with hp | hp
    · exact (isWord_of_mem_fieldWords hfits hp).solid
    · exact solid_lastWords h p hp
  -- The content reads back as the tag; what is left is how the name is cut off in front of it.
  have hread := ofContent_content h hfits
  have hcontent : trim t.content = t.content := trim_joinWith ' ' hwords
  cases hparts : t.fieldWords ++ lastWords t.description with
  -- Without content the name ends the text, so no blank follows it.
  | nil =>
    have htext : t.text = '@' :: (t.name.toList ++ []) := by
      rw [text, hparts, List.append_nil]
      rfl
    have hempty : t.content = [] := by
      rw [content, hparts]
      rfl
    rw [hempty] at hread hcontent
    rw [htext, ofBlock?_name hname (fun c hc => by cases hc), hcontent, hread]
    rfl
  | cons p ps =>
    have htext : t.text = '@' :: (t.name.toList ++ ' ' :: t.content) := by
      rw [text, content, hparts, joinWith_cons_cons]
      rfl
    have hspace : isNameChar ' ' = false := by decide +kernel
    have hblank : isBlank ' ' = true := by decide
    rw [htext, ofBlock?_name hname (by rintro c ⟨⟩; exact hspace), trim_cons_blank hblank, hcontent,
      hread]
    simp [hblank]

/-! ## Lines of a tag -/

/-- The tag can be written and read again. -/
structure Canonical (t : Tag) : Prop where
  name : IsTagName t.name
  description : trim t.description.toList = t.description.toList
  lines : ∀ line ∈ linesOf t.description, trim line = line
  continued : ∀ line ∈ (linesOf t.description).tail, startsTag line = false
  fields : t.Fits

instance (name : String) : Decidable (IsTagName name) :=
  decidable_of_iff
    ((name.toList.head?.any Char.isAlpha && name.toList.tail.all isNameChar) = true) (by
      unfold IsTagName
      cases name.toList <;> simp)

instance (t : Tag) : Decidable t.Canonical :=
  decidable_of_iff
    (IsTagName t.name ∧ trim t.description.toList = t.description.toList ∧
      (∀ line ∈ linesOf t.description, trim line = line) ∧
      (∀ line ∈ (linesOf t.description).tail, startsTag line = false) ∧
      ofContent t.name t.content = t)
    ⟨fun ⟨hname, h, hlines, hcontinued, hread⟩ =>
      ⟨hname, h, hlines, hcontinued, (ofContent_content_iff h).1 hread⟩,
     fun h => ⟨h.name, h.description, h.lines, h.continued,
      ofContent_content h.description h.fields⟩⟩

/-- The lines of a tag as it is written. -/
def textLines (t : Tag) : List (List Char) := splitOn '\n' t.text

/-- The name and the fields of a tag are words on one line, which starts the tag. -/
theorem isWord_of_mem_head (h : t.Canonical) :
    ∀ w ∈ ('@' :: t.name.toList) :: t.fieldWords, IsWord w :=
  List.forall_mem_cons.2 ⟨isWord_sign h.name, fun _ hw => isWord_of_mem_fieldWords h.fields hw⟩

theorem solid_text (h : t.Canonical) : Solid t.text := by
  refine solid_joinWith ' ' (by simp) fun p hp => ?_
  rw [← List.cons_append, List.mem_append] at hp
  rcases hp with hp | hp
  · exact (isWord_of_mem_head h p hp).solid
  · exact solid_lastWords h.description p hp

theorem startsTag_head (h : IsTagName name) (ws : List (List Char)) (rest : List Char) :
    startsTag (joinWith ' ' (('@' :: name.toList) :: ws) ++ rest) = true := by
  obtain ⟨c, more, hname, hc, -⟩ := h
  have hjoin : joinWith ' ' (('@' :: name.toList) :: ws) =
      ['@', c] ++ joinWith ' ' (more :: ws) := by
    rw [hname]
    exact joinWith_append_cons ['@', c] more ws
  rw [hjoin]
  exact hc

/-- The first line of a tag starts it, and the others are those of its description. -/
theorem exists_textLines (h : t.Canonical) :
    ∃ first, t.textLines = first :: (linesOf t.description).tail ∧ startsTag first = true ∧
      IsLine first := by
  have hwords := isWord_of_mem_head h
  have hhead : Solid (joinWith ' ' (('@' :: t.name.toList) :: t.fieldWords)) :=
    solid_joinWith ' ' (by simp) fun w hw => (hwords w hw).solid
  have hone : '\n' ∉ joinWith ' ' (('@' :: t.name.toList) :: t.fieldWords) := by
    intro hbreak
    rcases mem_joinWith hbreak with hbreak | ⟨w, hw, hbreak⟩
    · cases hbreak
    · have hblank := (hwords w hw).no_blank '\n' hbreak
      cases hblank
  by_cases hempty : t.description = ""
  · have htext : t.text = joinWith ' ' (('@' :: t.name.toList) :: t.fieldWords) := by
      rw [text, lastWords, if_pos hempty, List.append_nil]
    have hstart := startsTag_head h.name t.fieldWords []
    rw [List.append_nil] at hstart
    refine ⟨_, ?_, hstart, hone, hhead.trimEnd_eq⟩
    rw [textLines, htext, splitOn_of_not_mem hone, hempty]
    rfl
  · have htext : t.text = joinWith ' ' (('@' :: t.name.toList) :: t.fieldWords) ++ [' '] ++
        t.description.toList := by
      rw [text, lastWords, if_neg hempty, ← List.cons_append,
        joinWith_append_singleton _ (List.cons_ne_nil _ _), List.append_assoc]
      rfl
    have hone' : '\n' ∉ joinWith ' ' (('@' :: t.name.toList) :: t.fieldWords) ++ [' '] := by
      simpa using hone
    obtain ⟨first, more, hlines⟩ := List.exists_cons_of_ne_nil (mt linesOf_eq_nil hempty)
    have hsplit := hlines
    rw [linesOf_of_ne_empty hempty] at hsplit
    -- The description starts with a character that is no blank, so its first line is solid.
    have hmem : first ∈ linesOf t.description := by
      rw [hlines]
      exact List.mem_cons_self
    have hfirst : first ≠ [] := by
      rintro rfl
      have hblank := (tight_linesOf h.description).head [] (by rw [hlines]; rfl)
      cases hblank
    have hsolid := solid_of_trim (h.lines first hmem) hfirst
    refine ⟨joinWith ' ' (('@' :: t.name.toList) :: t.fieldWords) ++ ([' '] ++ first), ?_,
      startsTag_head h.name _ _, ?_, (hhead.append hsolid [' ']).trimEnd_eq⟩
    · rw [textLines, htext, splitOn_append_of_not_mem hone' hsplit, hlines, List.append_assoc]
      rfl
    · rw [← List.append_assoc, List.mem_append]
      rintro (hbreak | hbreak)
      · exact hone' hbreak
      · exact no_newline_of_mem_linesOf hmem hbreak

end ApiCatalog.Tag
