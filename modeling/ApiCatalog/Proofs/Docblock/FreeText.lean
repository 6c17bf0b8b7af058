import ApiCatalog.Proofs.Docblock.Blocks

/-!
# Free text is kept

The lines in front of the first tag say something in their order, blank lines apart (`said`). The
summary and the description say the same: the summary takes the first of these lines, the
description the others, and neither takes anything behind the first tag (`interpret_free_text`).
A comment with one line only loses no more than blanks when it is cut in front of its tags.
-/

namespace ApiCatalog.Docblock

open Text

variable {line : List Char} {ls : List (List Char)}

/-! ## What lines say -/

/-- The lines that are not blank, each trimmed. -/
def said (ls : List (List Char)) : List (List Char) := (ls.filter (!isBlankLine ·)).map trim

theorem said_cons_blank (h : isBlankLine line = true) (ls : List (List Char)) :
    said (line :: ls) = said ls := by
  simp [said, h]

/-- A line that is not blank says its text without the blanks around it. -/
theorem said_cons (h : isBlankLine line = false) (ls : List (List Char)) :
    said (line :: ls) = trim line :: said ls := by
  simp [said, h]

/-- Lines say what they say one after the other. -/
theorem said_append (ls ls' : List (List Char)) : said (ls ++ ls') = said ls ++ said ls' := by
  simp [said]

/-- Lines say the same if they are as blank and trimmed alike. -/
theorem said_cons_congr {line' : List Char} (hblank : isBlankLine line' = isBlankLine line)
    (htrim : trim line' = trim line) (ls : List (List Char)) :
    said (line' :: ls) = said (line :: ls) := by
  cases h : isBlankLine line with
  | true => rw [said_cons_blank h, said_cons_blank (hblank.trans h)]
  | false => rw [said_cons h, said_cons (hblank.trans h), htrim]

/-- Blank lines say nothing. -/
theorem said_dropWhile (ls : List (List Char)) : said (ls.dropWhile isBlankLine) = said ls := by
  induction ls with
  | nil => rfl
  | cons line ls ih =>
    cases h : isBlankLine line with
    | true => rw [List.dropWhile_cons_of_pos h, said_cons_blank h, ih]
    | false => rw [List.dropWhile_cons_of_neg (by simp [h])]

/-- What is said is made of solid lines. -/
theorem solid_of_mem_said (h : line ∈ said ls) : Solid line := by
  obtain ⟨source, hsource, rfl⟩ := List.mem_map.1 h
  refine solid_of_trim (trim_trim source) fun hnil => ?_
  have hsolid := (List.mem_filter.1 hsource).2
  have hblank : isBlankLine source = true := List.all_eq_true.2 (trim_eq_nil_iff.1 hnil)
  simp [hblank] at hsolid

/-- What lines say has no line break in it. -/
theorem no_newline_of_mem_said (h : ∀ line ∈ ls, '\n' ∉ line) (hline : line ∈ said ls) :
    '\n' ∉ line := by
  obtain ⟨source, hsource, rfl⟩ := List.mem_map.1 hline
  exact fun hbreak => h source (List.mem_of_mem_filter hsource) (mem_of_mem_trim hbreak)

/-! ## What a text says -/

/-- A blank in front of a text stands in its first line. -/
theorem said_splitOn_cons_blank {c : Char} (hc : isBlank c = true) (cs : List Char) :
    said (splitOn '\n' (c :: cs)) = said (splitOn '\n' cs) := by
  by_cases hbreak : c = '\n'
  · rw [splitOn, if_pos hbreak, said_cons_blank rfl]
  · have hne : splitOn '\n' cs ≠ [] := splitOn_ne_nil cs
    obtain ⟨first, more, hcs⟩ := List.exists_cons_of_ne_nil hne
    rw [splitOn, if_neg hbreak, hcs]
    exact said_cons_congr (by simp [isBlankLine, hc]) (trim_cons_blank hc) more

/-- A blank behind a text stands in its last line. -/
theorem said_splitOn_append_blank {c : Char} (hc : isBlank c = true) (cs : List Char) :
    said (splitOn '\n' (cs ++ [c])) = said (splitOn '\n' cs) := by
  by_cases hbreak : c = '\n'
  · rw [hbreak, splitOn_append_cons, said_append]
    exact List.append_nil _
  · obtain hnil | ⟨front, last, hcs⟩ := List.eq_nil_or_concat (splitOn '\n' cs)
    · exact absurd hnil (splitOn_ne_nil cs)
    · rw [List.concat_eq_append] at hcs
      rw [splitOn_append_singleton hbreak hcs, hcs, said_append, said_append]
      congr 1
      exact said_cons_congr (by simp [isBlankLine, hc]) (trim_append_blank hc) []

/-- Trimming a text takes no words from it. -/
theorem said_splitOn_trim (cs : List Char) :
    said (splitOn '\n' (trim cs)) = said (splitOn '\n' cs) :=
  apply_trim (f := fun cs => said (splitOn '\n' cs)) (fun _ cs hc => said_splitOn_cons_blank hc cs)
    (fun _ cs hc => said_splitOn_append_blank hc cs) cs

/-- A carriage return at the end of a line says nothing. -/
theorem said_linesOfPieces (pieces : List (List Char)) :
    said (linesOfPieces pieces) = said pieces := by
  -- A line break before the next piece only takes a carriage return away, which no word contains.
  have hreturn : ∀ piece : List Char, ∀ ls,
      said (dropReturn piece :: ls) = said (piece :: ls) := by
    intro piece ls
    unfold dropReturn
    split
    · next hlast =>
      obtain ⟨front, rfl⟩ := List.getLast?_eq_some_iff.1 hlast
      have hblank : isBlank '\r' = true := by decide
      rw [List.dropLast_concat]
      exact (said_cons_congr (by simp [isBlankLine, hblank]) (trim_append_blank hblank) ls).symm
    · rfl
  -- The last piece is a line only if it is not empty, and an empty line says nothing.
  induction pieces with
  | nil => rfl
  | cons piece pieces ih =>
    cases pieces with
    | nil =>
      cases piece with
      | nil => rfl
      | cons c piece => rfl
    | cons next pieces =>
      rw [linesOfPieces, hreturn]
      · cases h : isBlankLine piece with
        | true => rw [said_cons_blank h, said_cons_blank h, ih]
        | false => rw [said_cons h, said_cons h, ih]
      · simp

/-- Lines joined to a text and trimmed say what they said before. -/
theorem said_lines_trim_joinWith (h : ∀ line ∈ ls, '\n' ∉ line) :
    said (lines (trim (joinWith '\n' ls))) = said ls := by
  rw [lines, said_linesOfPieces, said_splitOn_trim]
  by_cases hempty : ls = []
  · subst hempty
    rfl
  · rw [splitOn_joinWith hempty h]

/-- Solid lines joined to a text are its lines. -/
theorem lines_joinWith (h : ∀ line ∈ ls, Solid line) (hone : ∀ line ∈ ls, '\n' ∉ line) :
    lines (joinWith '\n' ls) = ls := by
  rcases List.eq_nil_or_concat ls with rfl | ⟨front, last, rfl⟩
  · rfl
  · rw [List.concat_eq_append] at h hone ⊢
    have hlast := (h last (List.mem_append_right _ (List.mem_singleton.2 rfl))).ne_nil
    have hreturn : front.map dropReturn = front := by
      refine (List.map_congr_left fun line hline => ?_).trans (List.map_id _)
      refine dropReturn_of_getLast?_ne fun hend => ?_
      have hblank := (h line (List.mem_append_left _ hline)).last '\r' hend
      cases hblank
    rw [lines, splitOn_joinWith (by simp) hone, linesOfPieces_append front hlast, hreturn]

/-! ## The summary and the lines behind it -/

/-- Between them, the summary and what is left say what the lines said. -/
theorem takeSummary_said (ls : List (List Char)) :
    (takeSummary ls).1 ++ said (takeSummary ls).2 = said ls := by
  induction ls with
  | nil => rfl
  | cons line ls ih =>
    rw [takeSummary]
    cases h : isBlankLine line with
    | true => simp [said_cons_blank h]
    | false =>
      by_cases hstop : (trimEnd line).getLast? = some '.'
      · simp [hstop, said_cons h]
      · simp [hstop, said_cons h, ih]

/-- The summary is taken from the front. -/
theorem takeSummary_suffix (ls : List (List Char)) : (takeSummary ls).2 <:+ ls := by
  induction ls with
  | nil => exact List.suffix_rfl
  | cons line ls ih =>
    rw [takeSummary]
    split
    · exact List.suffix_cons line ls
    · split
      · exact List.suffix_cons line ls
      · exact ih.trans (List.suffix_cons line ls)

/-- A line that is not blank is the first of the summary. -/
theorem takeSummary_ne_nil (h : isBlankLine line = false) (ls : List (List Char)) :
    (takeSummary (line :: ls)).1 ≠ [] := by
  rw [takeSummary, h]
  by_cases hstop : (trimEnd line).getLast? = some '.'
  · simp [hstop]
  · simp [hstop]

/-- Where a line ends does not depend on how it starts. -/
theorem getLast?_trim (h : isBlankLine line = false) :
    (trim line).getLast? = (trimEnd line).getLast? := by
  induction line with
  | nil => cases h
  | cons c rest ih =>
    cases hc : isBlank c with
    | false =>
      rw [trim, trimStart_cons hc]
    | true =>
      have hrest : isBlankLine rest = false := by simpa [isBlankLine, hc] using h
      -- The end is that of the rest, as long as anything of the rest is kept.
      have hsome : trimEnd rest ≠ [] := by
        intro hnil
        have hblank : isBlankLine rest = true :=
          List.all_eq_true.2 (List.rdropWhile_eq_nil_iff.1 hnil)
        rw [hblank] at hrest
        cases hrest
      rw [trim_cons_blank hc, ih hrest]
      rcases trimEnd_cons_cases c rest with hnil | hcons
      · have hblank := List.rdropWhile_eq_nil_iff.1 hnil
        exact absurd (List.rdropWhile_eq_nil_iff.2 fun d hd => hblank d (List.mem_cons_of_mem c hd))
          hsome
      · rw [hcons, List.getLast?_cons, List.getLast?_eq_some_getLast hsome]
        rfl

/-- Only the last line of a summary ends in a full stop. -/
theorem takeSummary_full_stop (ls : List (List Char)) :
    ∀ line ∈ (takeSummary ls).1.dropLast, line.getLast? ≠ some '.' := by
  induction ls with
  | nil => exact nofun
  | cons line ls ih =>
    rw [takeSummary]
    cases h : isBlankLine line with
    | true => simp
    | false =>
      by_cases hstop : (trimEnd line).getLast? = some '.'
      · simp [hstop]
      · have hline : (trim line).getLast? ≠ some '.' := by rwa [getLast?_trim h]
        simp only [hstop, if_false, Bool.false_eq_true]
        cases hsummary : (takeSummary ls).1 with
        | nil => simp
        | cons next more =>
          rw [hsummary] at ih
          rw [List.dropLast_cons_cons]
          exact List.forall_mem_cons.2 ⟨hline, ih⟩

/-! ## Cleaned lines -/

/-- Cutting a line loses nothing of it. -/
theorem flatten_cutAtTags (afterBlank : Bool) (line : List Char) :
    (cutAtTags afterBlank line).flatten = line := by
  induction line generalizing afterBlank with
  | nil => rfl
  | cons c rest ih =>
    have hrest := ih (isBlank c)
    have hhere : (c :: (cutAtTags (isBlank c) rest).headD []) ++
        (cutAtTags (isBlank c) rest).tail.flatten = c :: rest := by
      cases hpieces : cutAtTags (isBlank c) rest with
      | nil => simpa [hpieces] using hrest
      | cons piece pieces => simpa [hpieces] using hrest
    rw [cutAtTags]
    split
    · simpa using hhere
    · simpa using hhere

/-- Nothing but blanks is lost when a line is cut. -/
theorem filter_inlineLines (line : List Char) :
    (inlineLines line).flatten.filter (!isBlank ·) = line.filter (!isBlank ·) := by
  unfold inlineLines
  split
  · rw [List.flatten_singleton]
  · have htrim : (List.filter (!isBlank ·)) ∘ trim = List.filter (!isBlank ·) :=
      funext fun cs => filter_trim cs
    rw [List.flatten_filter_not_isEmpty, List.filter_flatten, List.map_map, htrim,
      ← List.filter_flatten, flatten_cutAtTags]

/-- What is cut has the line's characters. -/
theorem mem_of_mem_inlineLines {piece : List Char} {c : Char} (h : piece ∈ inlineLines line)
    (hc : c ∈ piece) : c ∈ line := by
  unfold inlineLines at h
  split at h
  · rwa [List.mem_singleton.1 h] at hc
  · obtain ⟨source, hsource, rfl⟩ := List.mem_map.1 (List.mem_of_mem_filter h)
    rw [← flatten_cutAtTags false line]
    exact List.mem_flatten.2 ⟨source, hsource, mem_of_mem_trim hc⟩

theorem no_newline_of_mem_linesOfPieces {pieces : List (List Char)}
    (h : ∀ piece ∈ pieces, '\n' ∉ piece) : ∀ line ∈ linesOfPieces pieces, '\n' ∉ line := by
  induction pieces with
  | nil => simp [linesOfPieces]
  | cons piece pieces ih =>
    obtain ⟨hpiece, hmore⟩ := List.forall_mem_cons.1 h
    cases pieces with
    | nil =>
      rw [linesOfPieces]
      split
      · simp
      · exact List.forall_mem_singleton.2 hpiece
    | cons next pieces =>
      rw [linesOfPieces]
      · exact List.forall_mem_cons.2
          ⟨fun hbreak => hpiece ((dropReturn_isPrefix piece).subset hbreak), ih hmore⟩
      · simp

/-- A line holds no line break. -/
theorem no_newline_of_mem_lines {cs : List Char} (h : line ∈ lines cs) : '\n' ∉ line :=
  no_newline_of_mem_linesOfPieces
    (fun _ hpiece hbreak => (mem_of_mem_splitOn hpiece hbreak).2 rfl) line h

theorem mem_of_mem_cleanLine {c : Char} (h : c ∈ cleanLine line) : c ∈ line := by
  have hstart : ∀ c ∈ trimStart line, c ∈ line := (List.dropWhile_suffix _).subset
  have hdrop := (List.rdropWhile_prefix _ _).subset h
  split at hdrop
  · next rest heq => exact hstart c (by rw [heq]; simp [hdrop])
  · next rest heq => exact hstart c (by rw [heq]; simp [hdrop])
  · exact hstart c hdrop

theorem mem_of_mem_trimBlankLines (h : line ∈ trimBlankLines ls) : line ∈ ls := by
  have hdrop := (List.dropWhile_suffix _).subset (List.mem_reverse.1 h)
  exact (List.dropWhile_suffix _).subset (List.mem_reverse.1 hdrop)

/-- Cleaning brings none in. -/
theorem no_newline_of_mem_cleanLines {raw : List Char} (h : line ∈ cleanLines raw) :
    '\n' ∉ line := by
  have htrimmed : ∀ line ∈ trimBlankLines ((lines (withoutDelimiters raw)).map cleanLine),
      '\n' ∉ line := by
    intro line hline hbreak
    obtain ⟨source, hsource, rfl⟩ := List.mem_map.1 (mem_of_mem_trimBlankLines hline)
    exact no_newline_of_mem_lines hsource (mem_of_mem_cleanLine hbreak)
  unfold cleanLines at h
  split at h
  · next only hlines =>
    exact fun hbreak => htrimmed only (by rw [hlines]; exact List.mem_singleton.2 rfl)
      (mem_of_mem_inlineLines h hbreak)
  · exact htrimmed line h

/-! ## The whole comment -/

/-- The cleaned lines in front of the first one that starts a tag. -/
def freeLines (raw : String) : List (List Char) :=
  (cleanLines raw.toList).takeWhile (!startsTag ·)

/-- The docblock says what these lines do. -/
structure KeepsText (ls : List (List Char)) (d : Docblock) : Prop where
  said : lines d.summary.toList ++ said (lines d.description.toList) = said ls
  summary : d.summary = "" → ∀ line ∈ ls, isBlankLine line = true
  full_stop : ∀ line ∈ (lines d.summary.toList).dropLast, line.getLast? ≠ some '.'

/-- Tags say nothing about the free text. -/
theorem KeepsText.of_tags {d : Docblock} {tags : List Tag} (h : KeepsText ls { d with tags }) :
    KeepsText ls d :=
  ⟨h.said, h.summary, h.full_stop⟩

/-- Without a tag among them, lines are free text. -/
theorem ofLines_of_no_tag (h : ∀ line ∈ ls, startsTag line = false) :
    ofLines ls = {
      summary := .ofList (joinWith '\n' (takeSummary (ls.dropWhile isBlankLine)).1)
      description := .ofList
        (trim (joinWith '\n' (takeSummary (ls.dropWhile isBlankLine)).2)) } := by
  have hblocks : blocksOf ls = [] := by
    have hnone : (blocksOf ls).map Block.line = [] := by
      rw [map_line_blocksOf]
      exact List.filter_eq_nil_iff.2 fun line hline => by simp [h line hline]
    exact List.map_eq_nil_iff.1 hnone
  have htext : ls.takeWhile (!startsTag ·) = ls :=
    List.takeWhile_eq_self_iff.2 fun line hline => by simp [h line hline]
  rw [ofLines_eq, hblocks, htext]
  rfl

/-- Lines without a tag are kept as text. -/
theorem keepsText_ofLines (h : ∀ line ∈ ls, startsTag line = false)
    (hone : ∀ line ∈ ls, '\n' ∉ line) : KeepsText ls (ofLines ls) := by
  rw [ofLines_of_no_tag h]
  have hsaid := takeSummary_said (ls.dropWhile isBlankLine)
  have hsuffix := takeSummary_suffix (ls.dropWhile isBlankLine)
  have hstop := takeSummary_full_stop (ls.dropWhile isBlankLine)
  have hstart :
      (takeSummary (ls.dropWhile isBlankLine)).1 = [] → ls.dropWhile isBlankLine = [] := by
    intro hnothing
    by_contra hsome
    obtain ⟨line, more, hmore⟩ := List.exists_cons_of_ne_nil hsome
    have hline := List.head?_dropWhile_not isBlankLine ls
    rw [hmore] at hline hnothing
    exact takeSummary_ne_nil hline more hnothing
  rw [said_dropWhile] at hsaid
  -- From here on, the two parts are known by these four facts only.
  generalize takeSummary (ls.dropWhile isBlankLine) = parts at hsaid hsuffix hstop hstart ⊢
  obtain ⟨summary, rest⟩ := parts
  simp only at hsaid hsuffix hstop hstart ⊢
  -- The summary is part of what is said, so its lines are those of the text it is joined to.
  have hmem : ∀ line ∈ summary, line ∈ said ls := fun line hline => by
    rw [← hsaid]
    exact List.mem_append_left _ hline
  have hlines : lines (joinWith '\n' summary) = summary :=
    lines_joinWith (fun line hline => solid_of_mem_said (hmem line hline))
      fun line hline => no_newline_of_mem_said hone (hmem line hline)
  have hrest : ∀ line ∈ rest, '\n' ∉ line := fun line hline =>
    hone line ((List.dropWhile_suffix _).subset (hsuffix.subset hline))
  refine ⟨?_, fun hempty => ?_, ?_⟩
  · simp only [String.toList_ofList]
    rw [hlines, said_lines_trim_joinWith hrest, hsaid]
  · have hnothing : summary = [] := by
      have hjoin := congrArg String.toList hempty
      rw [String.toList_ofList] at hjoin
      rw [← hlines, hjoin]
      rfl
    exact List.dropWhile_eq_nil_iff.1 (hstart hnothing)
  · simp only [String.toList_ofList]
    rwa [hlines]

/-- Free text is neither lost nor doubled nor put in another order, and neither the summary nor the
description depends on anything behind the first tag. A comment with one line only keeps all
characters of that line but blanks, wherever it is cut. -/
theorem interpret_free_text (raw : String) :
    KeepsText (freeLines raw) (interpret raw) ∧
      ofLines (freeLines raw) = { interpret raw with tags := [] } ∧
      ∀ line, trimBlankLines ((lines (withoutDelimiters raw.toList)).map cleanLine) = [line] →
        (cleanLines raw.toList).flatten.filter (!isBlank ·) = line.filter (!isBlank ·) := by
  have hfree : ∀ line ∈ freeLines raw, startsTag line = false := fun line hline => by
    simpa using List.mem_takeWhile_imp hline
  have hone : ∀ line ∈ freeLines raw, '\n' ∉ line := fun line hline =>
    no_newline_of_mem_cleanLines ((List.takeWhile_sublist _).subset hline)
  have htags : ofLines (freeLines raw) = { interpret raw with tags := [] } := by
    rw [ofLines_of_no_tag hfree, interpret, ofLines_eq, freeLines]
  have hkeeps := keepsText_ofLines hfree hone
  rw [htags] at hkeeps
  refine ⟨hkeeps.of_tags, htags, fun line hline => ?_⟩
  rw [cleanLines, hline]
  exact filter_inlineLines line

/-- A comment with one line only, and tags on it. -/
theorem interpret_free_text_one_line :
    let raw := "/** Purrs  loudly. @since 1.0\t@internal */"
    let line := "Purrs  loudly. @since 1.0\t@internal".toList
    trimBlankLines ((lines (withoutDelimiters raw.toList)).map cleanLine) = [line] ∧
      cleanLines raw.toList =
        ["Purrs  loudly.".toList, "@since 1.0".toList, "@internal".toList] ∧
      (interpret raw).summary = "Purrs  loudly." ∧
      KeepsText (freeLines raw) (interpret raw) ∧
      (cleanLines raw.toList).flatten.filter (!isBlank ·) = line.filter (!isBlank ·) := by
  intro raw line
  have hline : trimBlankLines ((lines (withoutDelimiters raw.toList)).map cleanLine) = [line] := by
    decide +kernel
  exact ⟨hline, by decide +kernel, by decide +kernel, (interpret_free_text raw).1,
    (interpret_free_text raw).2.2 line hline⟩

end ApiCatalog.Docblock
