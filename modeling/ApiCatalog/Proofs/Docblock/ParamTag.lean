import ApiCatalog.Proofs.Docblock.Blocks
import ApiCatalog.Store.Entry

/-!
# Tags that document a parameter

A `param` tag names its variable behind the types, in one of four spellings. However it is spelled
and whatever blanks stand around it, the tag is read with these types, the bare name of the variable
and the description (`ParamTag.ofBlock?_text`). An argument of that name takes its documentation
from the first such tag of the comment (`argumentInfo_of_documents`).
-/

namespace ApiCatalog

open Text

/-- How the variable of a tag may be spelled. -/
def sigils : List String := ["$", "&$", "...$", "&...$"]

theorem bareVariable_of_mem_sigils {sigil : String} (h : sigil ∈ sigils) :
    IsWord sigil.toList ∧ ∀ cs, Tag.bareVariable (sigil.toList ++ cs) = '$' :: cs := by
  simp only [sigils, List.mem_cons, List.not_mem_nil, or_false] at h
  rcases h with rfl | rfl | rfl | rfl
  all_goals exact ⟨by decide, fun cs => by simp [Tag.bareVariable, dropLeading, Tag.dropEllipses]⟩

/-- A `param` tag as it is written: types, a variable in one of its spellings, and perhaps a
description, with blanks between them. -/
structure ParamTag where
  /-- The types as one word. -/
  typeWord : List Char
  sigil : String
  var : String
  /-- What stands in front of the types. -/
  gap : List Char
  /-- What stands in front of the variable. -/
  gap' : List Char
  /-- What stands behind the variable. -/
  rest : List Char
  isWord_typeWord : IsWord typeWord
  typeWord_plain : Tag.isVariable typeWord = false
  sigil_mem : sigil ∈ sigils
  var_fits : Tag.VariableFits var
  gap_ne : gap ≠ []
  gap_blank : ∀ c ∈ gap, isBlank c = true
  gap'_ne : gap' ≠ []
  gap'_blank : ∀ c ∈ gap', isBlank c = true
  rest_blank : ∀ c ∈ rest.head?, isBlank c = true

namespace ParamTag

variable (t : ParamTag)

/-- The types of the word, of which none is empty. -/
def types : List String := ((splitOn '|' t.typeWord).filter (!·.isEmpty)).map String.ofList

/-- The variable as it is spelled. -/
def varWord : List Char := t.sigil.toList ++ t.var.toList

/-- The tag as it is written. -/
def text : List Char :=
  "@param".toList ++ (t.gap ++ (t.typeWord ++ (t.gap' ++ (t.varWord ++ t.rest))))

def description : String := .ofList (trim t.rest)

/-- What the tag says. -/
def tag : Tag :=
  { name := "param", description := t.description, types := some t.types, varName := some t.var }

/-- The variable is one word, and its sigil and marks are not part of its name. -/
theorem isWord_varWord : IsWord t.varWord ∧ Tag.isVariable t.varWord = true ∧
    Tag.variableName t.varWord = t.var.toList := by
  obtain ⟨hsigil, hbare⟩ := bareVariable_of_mem_sigils t.sigil_mem
  refine ⟨⟨List.append_ne_nil_of_left_ne_nil hsigil.ne_nil _, fun c hc => ?_⟩, ?_, ?_⟩
  · rcases List.mem_append.1 hc with hc | hc
    · exact hsigil.no_blank c hc
    · exact t.var_fits.1 c hc
  · rw [Tag.isVariable, varWord, hbare]
    rfl
  · have hdrop : dropLeading '$' ('$' :: t.var.toList) = dropLeading '$' t.var.toList := by
      simp [dropLeading]
    rw [Tag.variableName, varWord, hbare, hdrop, dropLeading_eq_self t.var_fits.2]

/-- Behind the blank in front of it, the variable is read in full. -/
theorem parameter_content :
    Tag.parameter "param" (trim (t.typeWord ++ (t.gap' ++ (t.varWord ++ t.rest)))) = t.tag := by
  obtain ⟨hvar, hvariable, hname⟩ := t.isWord_varWord
  have hsplit : Tag.strings (Tag.splitTypes t.typeWord) = t.types := by
    rw [Tag.splitTypes_of_no_blank t.isWord_typeWord.2, Tag.strings, types]
  have hgap : ∀ cs, ∀ c ∈ (t.gap' ++ cs).head?, isBlank c = true := by
    intro cs c hc
    rw [List.head?_append_of_ne_nil _ t.gap'_ne] at hc
    exact t.gap'_blank c (List.mem_of_mem_head? hc)
  -- The types are the first word, the variable is the second, and the description is left.
  have hfirst : nextWord (trim (t.typeWord ++ (t.gap' ++ (t.varWord ++ t.rest)))) =
      (t.typeWord, t.varWord ++ trimEnd t.rest) := by
    rw [t.isWord_typeWord.trim_append, nextWord_append t.isWord_typeWord (head?_trimEnd (hgap _)),
      trim_trimEnd, trim_append_of_blank t.gap'_blank, hvar.trim_append]
  have hsecond : nextWord (t.varWord ++ trimEnd t.rest) = (t.varWord, trim t.rest) := by
    rw [nextWord_append hvar (head?_trimEnd t.rest_blank), trim_trimEnd]
  simp only [Tag.parameter, hfirst, hsecond, t.typeWord_plain, hvariable, hsplit, hname]
  simp [tag, description]

/-- The tag is read as it was written. -/
theorem ofBlock?_text : Tag.ofBlock? t.text = some t.tag := by
  have hname : Tag.IsTagName "param" := by decide +kernel
  obtain ⟨b, more, hmore⟩ := List.exists_cons_of_ne_nil t.gap_ne
  have hb : isBlank b = true := t.gap_blank b (by rw [hmore]; exact List.mem_cons_self)
  have hhead : ∀ cs : List Char, (t.gap ++ cs).head? = some b := fun cs => by rw [hmore]; rfl
  have hstop : Tag.isNameChar b = false := by
    by_contra hchar
    rw [Tag.isBlank_of_isNameChar (Bool.not_eq_false _ ▸ hchar)] at hb
    cases hb
  have htext : t.text = '@' :: ("param".toList ++
      (t.gap ++ (t.typeWord ++ (t.gap' ++ (t.varWord ++ t.rest))))) := rfl
  have hshape : Tag.shapeOf "param" = .parameter := by decide
  rw [htext, Tag.ofBlock?_name hname (by rw [hhead]; rintro c ⟨⟩; exact hstop), hhead,
    trim_append_of_blank t.gap_blank]
  simp only [Option.all_some, hb, if_true, Tag.ofContent, hshape, parameter_content]

end ParamTag

/-- The tag is the first one of the comment that documents its variable. -/
structure Documents (raw : String) (t : ParamTag) : Prop where
  first : ∃ before b after,
    Docblock.blocksOf (Docblock.cleanLines raw.toList) = before ++ b :: after ∧ b.text = t.text ∧
    ∀ tag ∈ before.filterMap fun b => Tag.ofBlock? b.text, tag.name = "param" →
      tag.varName ≠ some t.var

theorem find?_of_documents {raw : String} {t : ParamTag} (h : Documents raw t) :
    ((Docblock.interpret raw).named "param").find? (·.varName == some t.var) = some t.tag := by
  obtain ⟨before, b, after, hblocks, hb, hbefore⟩ := h.first
  -- The search skips the tags in front, which have another name or another variable.
  have hnone : (before.filterMap fun b => Tag.ofBlock? b.text).find?
      (fun tag => (tag.name == "param") = true ∧ (tag.varName == some t.var) = true) = none := by
    refine List.find?_eq_none.2 fun tag htag hfound => ?_
    rw [decide_eq_true_eq, beq_iff_eq, beq_iff_eq] at hfound
    exact hbefore tag htag hfound.1 hfound.2
  rw [Docblock.named, List.find?_filter, Docblock.tags_interpret, hblocks, List.filterMap_append,
    List.find?_append, hnone, List.filterMap_cons_some (by rw [hb]; exact t.ofBlock?_text)]
  simp [ParamTag.tag]

/-- An argument gets the types of the tag that documents it, then its own type unless that is one
of them, and the description. -/
theorem argumentInfo_of_documents {raw : String} {t : ParamTag} (h : Documents raw t)
    {a : ArgumentEntry} (ha : a.name = t.var) :
    argumentInfo a (Docblock.interpret raw) =
      (t.types ++ [a.type].filter (fun type => type ≠ "" ∧ type ∉ t.types), t.description) := by
  rw [argumentInfo, ha, find?_of_documents h]
  simp only [ParamTag.tag, Option.getD_some, Prod.mk.injEq, and_true]
  by_cases hlisted : a.type = "" ∨ a.type ∈ t.types
  · have hnone : ¬ (a.type ≠ "" ∧ a.type ∉ t.types) := by
      rintro ⟨hne, hmem⟩
      exact hlisted.elim hne hmem
    simp [hlisted, hnone]
  · obtain ⟨hne, hmem⟩ := not_or.1 hlisted
    simp [hne, hmem]

end ApiCatalog
