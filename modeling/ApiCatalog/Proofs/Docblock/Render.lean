import ApiCatalog.Docblock.Interpret
import ApiCatalog.Proofs.Docblock.Tag

/-!
# Writing a docblock

A docblock is written as its summary, its description and its tags, with an empty line between
these parts. Reading inverts that for every canonical docblock (`interpret_render`): the first empty
line or a full stop ends the summary, each line that starts a tag opens a block, and all other lines
stay with what they continue.
-/

namespace ApiCatalog.Docblock

open Text

variable {d : Docblock} {line : List Char} {ls text gap gap' : List (List Char)}

/-! ## The written docblock -/

/-- The lines of the tags. -/
def tagLines (d : Docblock) : List (List Char) := d.tags.flatMap Tag.textLines

/-- The lines of the summary, of the description and of the tags. -/
def parts (d : Docblock) : List (List (List Char)) :=
  [linesOf d.summary, linesOf d.description, d.tagLines]

/-- The parts with an empty line between them. Next to a part that is empty that line may be left
out; `spaced` keeps it. -/
def written (spaced : Bool) (d : Docblock) : List (List Char) :=
  [[]].intercalate (d.parts.filter fun part => spaced || !part.isEmpty)

/-- The parts with these lines between them. -/
def withGaps (d : Docblock) (gap gap' : List (List Char)) : List (List Char) :=
  linesOf d.summary ++ (gap ++ linesOf d.description ++ gap') ++ d.tagLines

/-- Empty lines between the parts, at least one in front of a description. -/
structure Gaps (d : Docblock) (gap gap' : List (List Char)) : Prop where
  first : ∀ line ∈ gap, line = []
  second : ∀ line ∈ gap', line = []
  before_description : d.description ≠ "" → gap ≠ []

/-- The documentation comment that says `d`. -/
def render (spaced : Bool) (d : Docblock) : String := .ofList (comment (d.written spaced))

/-- Nothing of the docblock is lost or taken for something else when it is written. -/
structure Canonical (d : Docblock) : Prop where
  summary : ∀ line ∈ linesOf d.summary, trim line = line ∧ line ≠ []
  /-- Only the last line of a summary may end in a full stop. -/
  full_stop : ∀ line ∈ (linesOf d.summary).dropLast, line.getLast? ≠ some '.'
  summary_ne_empty : d.description ≠ "" → d.summary ≠ ""
  description : trim d.description.toList = d.description.toList
  description_lines : ∀ line ∈ linesOf d.description, trimEnd line = line
  no_tag : ∀ line ∈ linesOf d.summary ++ linesOf d.description, startsTag line = false
  tags : ∀ t ∈ d.tags, t.Canonical
  /-- A line that stands alone must not seem to have a tag inside. -/
  one_line : ∀ line, d.parts.flatten = [line] → NoInlineTag line

/-! ## Reading lines -/

/-- Lines in front of the first tag stay in front. -/
theorem splitTags_append (h : ∀ line ∈ text, startsTag line = false) (ls : List (List Char)) :
    splitTags (text ++ ls) = (text ++ (splitTags ls).1, (splitTags ls).2) := by
  induction text with
  | nil => rfl
  | cons line text ih =>
    have hline := h line List.mem_cons_self
    rw [List.cons_append, splitTags, ih fun l hl => h l (List.mem_cons_of_mem _ hl)]
    simp [hline]

/-- A block is the line that starts a tag with those that continue it. -/
theorem splitTags_tagLines {tags : List Tag} (h : ∀ t ∈ tags, t.Canonical) :
    splitTags (tags.flatMap Tag.textLines) = ([], tags.map Tag.textLines) := by
  induction tags with
  | nil => rfl
  | cons t tags ih =>
    obtain ⟨ht, htags⟩ := List.forall_mem_cons.1 h
    obtain ⟨first, hlines, hstart, -⟩ := Tag.exists_textLines ht
    have htrim : (linesOf t.description).tail.map trim = (linesOf t.description).tail :=
      (List.map_congr_left fun line hline => ht.lines line (List.mem_of_mem_tail hline)).trans
        (List.map_id' _)
    rw [List.flatMap_cons, hlines, List.cons_append, splitTags, splitTags_append ht.continued,
      ih htags, List.map_cons, hlines]
    simp [hstart, htrim]

/-- The blocks of written tags are read as the tags. -/
theorem filterMap_ofBlock? {tags : List Tag} (h : ∀ t ∈ tags, t.Canonical) :
    (tags.map Tag.textLines).filterMap (fun block => Tag.ofBlock? (joinWith '\n' block)) =
      tags := by
  rw [List.filterMap_map]
  refine (List.filterMap_congr fun t ht => ?_).trans List.filterMap_some
  have hcanonical := h t ht
  rw [Function.comp_apply, Tag.textLines, joinWith_splitOn]
  exact Tag.ofBlock?_text hcanonical.name hcanonical.description hcanonical.fields

theorem isBlankLine_of_solid (h : Solid line) : isBlankLine line = false := by
  obtain ⟨c, more, rfl⟩ := List.exists_cons_of_ne_nil h.ne_nil
  simp [isBlankLine, h.head c rfl]

/-- The summary ends with its last line, and maybe with the empty line behind it. -/
theorem takeSummary_append {after : List (List Char)} (hne : ls ≠ [])
    (hsolid : ∀ line ∈ ls, Solid line) (hstop : ∀ line ∈ ls.dropLast, line.getLast? ≠ some '.')
    (hafter : ∀ line ∈ after.head?, line = []) :
    ∃ rest, takeSummary (ls ++ after) = (ls, rest) ∧ (rest = after ∨ after = [] :: rest) := by
  -- On the lines of the summary; the last one ends it by its full stop or by the blank line behind.
  induction ls with
  | nil => exact absurd rfl hne
  | cons line ls ih =>
    obtain ⟨hline, hls⟩ := List.forall_mem_cons.1 hsolid
    rw [List.cons_append, takeSummary, isBlankLine_of_solid hline, hline.trimEnd_eq, hline.trim_eq]
    cases ls with
    | nil =>
      by_cases hdot : line.getLast? = some '.'
      · exact ⟨after, by simp [hdot], .inl rfl⟩
      · cases after with
        | nil => exact ⟨[], by simp [hdot, takeSummary], .inl rfl⟩
        | cons gap more =>
          obtain rfl := hafter gap rfl
          exact ⟨more, by simp [hdot, takeSummary, isBlankLine], .inr rfl⟩
    -- A line that is not the last has no full stop, and the reading goes on.
    | cons next ls =>
      have hdot : line.getLast? ≠ some '.' := hstop line List.mem_cons_self
      obtain ⟨rest, hrest, hor⟩ := ih (by simp) hls
        fun l hl => hstop l (List.mem_cons_of_mem _ hl)
      refine ⟨rest, ?_, hor⟩
      rw [hrest]
      simp [hdot]

/-! ## Gaps -/

/-- An empty line at the front is trimmed. -/
theorem trim_joinWith_empty_cons (ls : List (List Char)) :
    trim (joinWith '\n' ([] :: ls)) = trim (joinWith '\n' ls) := by
  cases ls with
  | nil => rfl
  | cons line ls => exact trim_cons_blank (by decide)

theorem trim_joinWith_append_empty (ls : List (List Char)) :
    trim (joinWith '\n' (ls ++ [[]])) = trim (joinWith '\n' ls) := by
  by_cases hne : ls = []
  · subst hne
    rfl
  · rw [joinWith_append_singleton _ hne]
    exact trim_append_blank (by decide)

/-- Empty lines at both ends of a text are trimmed away. -/
theorem trim_joinWith_gaps (hgap : ∀ line ∈ gap, line = []) (hgap' : ∀ line ∈ gap', line = []) :
    trim (joinWith '\n' (gap ++ ls ++ gap')) = trim (joinWith '\n' ls) := by
  have hback : trim (joinWith '\n' (ls ++ gap')) = trim (joinWith '\n' ls) := by
    rw [List.eq_replicate_of_mem hgap']
    generalize gap'.length = n
    induction n with
    | zero => rw [List.replicate_zero, List.append_nil]
    | succ n ih => rw [List.replicate_succ', ← List.append_assoc, trim_joinWith_append_empty, ih]
  induction gap with
  | nil => exact hback
  | cons line gap ih =>
    obtain ⟨rfl, hmore⟩ := List.forall_mem_cons.1 hgap
    rw [List.cons_append, List.cons_append, trim_joinWith_empty_cons, ih hmore]

theorem solid_of_mem_summary (h : d.Canonical) : ∀ line ∈ linesOf d.summary, Solid line :=
  fun line hline => solid_of_trim (h.summary line hline).1 (h.summary line hline).2

/-- No line in front of the tags starts one. -/
theorem startsTag_of_mem (h : d.Canonical) (hgaps : Gaps d gap gap')
    (hline : line ∈ linesOf d.summary ++ (gap ++ linesOf d.description ++ gap')) :
    startsTag line = false := by
  simp only [List.mem_append] at hline
  rcases hline with hline | (hline | hline) | hline
  · exact h.no_tag line (List.mem_append_left _ hline)
  · rw [hgaps.first line hline]
    rfl
  · exact h.no_tag line (List.mem_append_right _ hline)
  · rw [hgaps.second line hline]
    rfl

/-- The line behind the summary is empty. -/
theorem empty_of_head? (hgaps : Gaps d gap gap')
    (hline : line ∈ (gap ++ linesOf d.description ++ gap').head?) : line = [] := by
  cases gap with
  | cons first gap =>
    obtain rfl := Option.some.inj hline
    exact hgaps.first first List.mem_cons_self
  | nil =>
    have hnone : d.description = "" := by
      by_contra hsome
      exact hgaps.before_description hsome rfl
    rw [hnone] at hline
    exact hgaps.second line (List.mem_of_mem_head? hline)

/-- What stands in front of the tags is read as the summary and the description. -/
theorem takeSummary_withGaps (h : d.Canonical) (hgaps : Gaps d gap gap') (hne : d.summary ≠ "") :
    ∃ rest, takeSummary ((linesOf d.summary ++
        (gap ++ linesOf d.description ++ gap')).dropWhile isBlankLine) = (linesOf d.summary, rest) ∧
      trim (joinWith '\n' rest) = d.description.toList := by
  have hlines := mt linesOf_eq_nil hne
  have hsolid := solid_of_mem_summary h
  have hdescription : trim (joinWith '\n' (gap ++ linesOf d.description ++ gap')) =
      d.description.toList := by
    rw [trim_joinWith_gaps hgaps.first hgaps.second, joinWith_linesOf, h.description]
  obtain ⟨rest, hrest, hor⟩ := takeSummary_append hlines hsolid h.full_stop
    fun line hline => empty_of_head? hgaps hline
  have hstart : (linesOf d.summary ++ (gap ++ linesOf d.description ++ gap')).dropWhile
      isBlankLine = linesOf d.summary ++ (gap ++ linesOf d.description ++ gap') := by
    obtain ⟨first, more, hfirst⟩ := List.exists_cons_of_ne_nil hlines
    have hblank := isBlankLine_of_solid (hsolid first (by rw [hfirst]; exact List.mem_cons_self))
    rw [hfirst, List.cons_append, List.dropWhile_cons_of_neg (by simp [hblank])]
  refine ⟨rest, by rw [hstart, hrest], ?_⟩
  rcases hor with rfl | hor
  · exact hdescription
  · rw [← trim_joinWith_empty_cons, ← hor]
    exact hdescription

/-- Without a summary there is no description, and nothing but gaps stands in front of the tags. -/
theorem dropWhile_withGaps (h : d.Canonical) (hgaps : Gaps d gap gap') (hsummary : d.summary = "") :
    d.description = "" ∧ (linesOf d.summary ++
      (gap ++ linesOf d.description ++ gap')).dropWhile isBlankLine = [] := by
  have hnone : d.description = "" := by
    by_contra hsome
    exact h.summary_ne_empty hsome hsummary
  refine ⟨hnone, List.dropWhile_eq_nil_iff.2 fun line hline => ?_⟩
  rw [hsummary, hnone, linesOf_empty, List.append_nil, List.nil_append] at hline
  rcases List.mem_append.1 hline with hline | hline
  · rw [hgaps.first line hline]
    rfl
  · rw [hgaps.second line hline]
    rfl

/-- Lines with gaps between the parts are read as the docblock that has these parts. -/
theorem ofLines_withGaps (h : d.Canonical) (hgaps : Gaps d gap gap') :
    ofLines (d.withGaps gap gap') = d := by
  unfold ofLines withGaps tagLines
  rw [splitTags_append fun line hline => startsTag_of_mem h hgaps hline, splitTags_tagLines h.tags]
  simp only [List.append_nil, filterMap_ofBlock? h.tags]
  by_cases hsummary : d.summary = ""
  · obtain ⟨hnone, hnothing⟩ := dropWhile_withGaps h hgaps hsummary
    rw [hnothing]
    obtain ⟨summary, description, tags⟩ := d
    simp only at hsummary hnone
    subst hsummary hnone
    rfl
  · obtain ⟨rest, hrest, htrim⟩ := takeSummary_withGaps h hgaps hsummary
    rw [hrest]
    simp only [joinWith_linesOf, htrim, String.ofList_toList]

/-! ## Reading what was written -/

/-- The written lines are the parts with gaps between them. -/
theorem exists_gaps (h : d.Canonical) (spaced : Bool) :
    ∃ gap gap', Gaps d gap gap' ∧ d.written spaced = d.withGaps gap gap' := by
  have hempty : ∀ line ∈ [([] : List Char)], line = [] := fun line => List.mem_singleton.1
  -- Spaced out, every part is followed by an empty line, so both gaps are one line.
  cases spaced with
  | true =>
    refine ⟨[[]], [[]], ⟨hempty, hempty, by simp⟩, ?_⟩
    simp [written, parts, withGaps, List.intercalate_cons_cons]
  | false =>
    have hparts : d.written false = [[]].intercalate (d.parts.filter (!·.isEmpty)) := rfl
    rw [hparts, parts]
    by_cases hnone : d.description = ""
    · by_cases hone : linesOf d.summary = [] ∨ d.tagLines = []
      · -- At most one part is left, and nothing stands between parts.
        refine ⟨[], [], ⟨nofun, nofun, absurd hnone⟩, ?_⟩
        rw [withGaps, hnone, linesOf_empty]
        rcases hone with hone | hone
        · cases htags : d.tagLines <;> simp [hone]
        · cases hsummary : linesOf d.summary <;> simp [hone]
      · obtain ⟨hsummary, htags⟩ := not_or.1 hone
        refine ⟨[[]], [], ⟨hempty, nofun, by simp⟩, ?_⟩
        simp [withGaps, hnone, linesOf_empty, hsummary, htags, List.intercalate_cons_cons]
    -- A description stands only below a summary, so the gap in front of it is there.
    · have hsummary := mt linesOf_eq_nil (h.summary_ne_empty hnone)
      have hdescription := mt linesOf_eq_nil hnone
      by_cases htags : d.tagLines = []
      · refine ⟨[[]], [], ⟨hempty, nofun, by simp⟩, ?_⟩
        simp [withGaps, hsummary, hdescription, htags, List.intercalate_cons_cons]
      · refine ⟨[[]], [[]], ⟨hempty, hempty, by simp⟩, ?_⟩
        simp [withGaps, hsummary, hdescription, htags, List.intercalate_cons_cons]

theorem tight_tagLines {tags : List Tag} (h : ∀ t ∈ tags, t.Canonical) :
    Tight (tags.flatMap Tag.textLines) := by
  induction tags with
  | nil => exact tight_nil
  | cons t tags ih =>
    obtain ⟨ht, htags⟩ := List.forall_mem_cons.1 h
    rw [List.flatMap_cons]
    exact (tight_splitOn (Tag.solid_text ht)).append (ih htags)

/-- The lines of a written tag can be lines of a comment. -/
theorem isLine_of_mem_tagLines (h : ∀ t ∈ d.tags, t.Canonical) (hline : line ∈ d.tagLines) :
    IsLine line := by
  obtain ⟨t, ht, hmem⟩ := List.mem_flatMap.1 hline
  obtain ⟨first, hlines, -, hfirst⟩ := Tag.exists_textLines (h t ht)
  rw [hlines] at hmem
  rcases List.mem_cons.1 hmem with rfl | hmem
  · exact hfirst
  · have hmem' := List.mem_of_mem_tail hmem
    exact ⟨no_newline_of_mem_linesOf hmem', trimEnd_of_trim ((h t ht).lines line hmem')⟩

theorem isLine_of_mem_withGaps (h : d.Canonical) (hgaps : Gaps d gap gap')
    (hline : line ∈ d.withGaps gap gap') : IsLine line := by
  have hempty : IsLine [] := ⟨by simp, rfl⟩
  simp only [withGaps, List.mem_append] at hline
  rcases hline with (hline | (hline | hline) | hline) | hline
  · exact ⟨no_newline_of_mem_linesOf hline, (solid_of_mem_summary h line hline).trimEnd_eq⟩
  · rw [hgaps.first line hline]
    exact hempty
  · exact ⟨no_newline_of_mem_linesOf hline, h.description_lines line hline⟩
  · rw [hgaps.second line hline]
    exact hempty
  · exact isLine_of_mem_tagLines h.tags hline

theorem tight_of_solid (h : ∀ line ∈ ls, Solid line) : Tight ls :=
  ⟨fun line hline => isBlankLine_of_solid (h line (List.mem_of_mem_head? hline)),
    fun line hline => isBlankLine_of_solid (h line (List.mem_of_getLast? hline))⟩

/-- The parts with the gaps `between` and `between'` are those with `gap` and `gap'`, without the
empty lines at both ends. -/
structure Core (d : Docblock) (gap gap' front between between' back : List (List Char)) : Prop where
  front_empty : ∀ line ∈ front, line = []
  back_empty : ∀ line ∈ back, line = []
  gaps : Gaps d between between'
  tight : Tight (d.withGaps between between')
  lines : d.withGaps gap gap' = front ++ d.withGaps between between' ++ back
  /-- A line alone is not made of two parts. -/
  one_line : ∀ line, d.withGaps between between' = [line] → d.parts.flatten = [line]

theorem append_ne_singleton {front middle back : List (List Char)} (hfront : front ≠ [])
    (hback : back ≠ []) (line : List Char) : front ++ middle ++ back ≠ [line] := by
  intro heq
  have hlength := congrArg List.length heq
  have hfront' := List.length_pos_of_ne_nil hfront
  have hback' := List.length_pos_of_ne_nil hback
  simp only [List.length_append, List.length_singleton] at hlength
  omega

theorem Gaps.append (h : Gaps d gap gap') : ∀ line ∈ gap ++ gap', line = [] := by
  intro line hline
  rcases List.mem_append.1 hline with hline | hline
  · exact h.first line hline
  · exact h.second line hline

theorem tight_summary (h : d.Canonical) : Tight (linesOf d.summary) :=
  tight_of_solid (solid_of_mem_summary h)

/-- Only the summary is there. -/
theorem core_summary (h : d.Canonical) (hgaps : Gaps d gap gap') (htags : d.tagLines = [])
    (hnone : d.description = "") : Core d gap gap' [] [] [] (gap ++ gap') where
  front_empty := nofun
  back_empty := hgaps.append
  gaps := ⟨nofun, nofun, absurd hnone⟩
  tight := by simpa [withGaps, htags, hnone, linesOf_empty] using tight_summary h
  lines := by simp [withGaps, htags, hnone, linesOf_empty]
  one_line line hline := by simpa [withGaps, parts, htags, hnone, linesOf_empty] using hline

/-- The summary and the description are there. -/
theorem core_description (h : d.Canonical) (hgaps : Gaps d gap gap') (htags : d.tagLines = [])
    (hsome : d.description ≠ "") : Core d gap gap' [] gap [] gap' := by
  have hdescription := mt linesOf_eq_nil hsome
  have hsummary := mt linesOf_eq_nil (h.summary_ne_empty hsome)
  have htight := (tight_summary h).append_middle (tight_linesOf h.description) hsummary hdescription gap
  refine ⟨nofun, hgaps.second, ⟨hgaps.first, nofun, hgaps.before_description⟩, ?_, ?_, ?_⟩
  · simpa [withGaps, htags] using htight
  · simp [withGaps, htags]
  · intro line hline
    have hmany : linesOf d.summary ++ gap ++ linesOf d.description ≠ [line] :=
      append_ne_singleton hsummary hdescription line
    exact absurd (by simpa [withGaps, htags] using hline) hmany

/-- Only tags are there. -/
theorem core_tags (h : d.Canonical) (hgaps : Gaps d gap gap') (hnone : d.summary = "") :
    Core d gap gap' (gap ++ gap') [] [] [] := by
  have hnone' : d.description = "" := by
    by_contra hsome
    exact h.summary_ne_empty hsome hnone
  have htags : Tight d.tagLines := tight_tagLines h.tags
  refine ⟨hgaps.append, nofun, ⟨nofun, nofun, absurd hnone'⟩, ?_, ?_, ?_⟩
  · simpa [withGaps, hnone, hnone', linesOf_empty] using htags
  · simp [withGaps, hnone, hnone', linesOf_empty]
  · intro line hline
    simpa [withGaps, parts, hnone, hnone', linesOf_empty] using hline

/-- The summary and tags are there. -/
theorem core_all (h : d.Canonical) (hgaps : Gaps d gap gap') (htags : d.tagLines ≠ [])
    (hsome : d.summary ≠ "") : Core d gap gap' [] gap gap' [] := by
  have hsummary := mt linesOf_eq_nil hsome
  refine ⟨nofun, nofun, hgaps, ?_, by simp, ?_⟩
  · exact (tight_summary h).append_middle (tight_tagLines h.tags) hsummary htags _
  · exact fun line hline => absurd hline (append_ne_singleton hsummary htags line)

/-- Whichever parts there are, a core can be found. -/
theorem exists_core (h : d.Canonical) (hgaps : Gaps d gap gap') :
    ∃ front between between' back, Core d gap gap' front between between' back := by
  by_cases htags : d.tagLines = []
  · by_cases hnone : d.description = ""
    · exact ⟨_, _, _, _, core_summary h hgaps htags hnone⟩
    · exact ⟨_, _, _, _, core_description h hgaps htags hnone⟩
  · by_cases hnone : d.summary = ""
    · exact ⟨_, _, _, _, core_tags h hgaps hnone⟩
    · exact ⟨_, _, _, _, core_all h hgaps htags hnone⟩

/-- Reading inverts the canonical way of writing a docblock. -/
theorem interpret_render (h : d.Canonical) (spaced : Bool) : interpret (d.render spaced) = d := by
  obtain ⟨gap, gap', hgaps, hwritten⟩ := exists_gaps h spaced
  obtain ⟨front, between, between', back, hcore⟩ := exists_core h hgaps
  have hlines : ∀ line ∈ d.withGaps gap gap', IsLine line :=
    fun line hline => isLine_of_mem_withGaps h hgaps hline
  have hblank : ∀ line : List Char, line = [] → isBlankLine line = true := by
    rintro _ rfl
    rfl
  rw [hcore.lines] at hlines
  have hclean := cleanLines_comment hlines hcore.tight
    (fun line hline => hblank line (hcore.front_empty line hline))
    (fun line hline => hblank line (hcore.back_empty line hline))
    fun line hline => h.one_line line (hcore.one_line line hline)
  rw [interpret, render, String.toList_ofList, hwritten, hcore.lines, hclean]
  exact ofLines_withGaps h hcore.gaps

/-- A docblock with a tag of every shape. -/
def purr : Docblock where
  summary := "Purrs\nfor a while."
  description := "Louder than @most:\n\n  * when fed\n  * when stroked"
  tags := [
    { name := "param", description := "how often\nat most", types := some ["int", "null"],
      varName := some "times" },
    { name := "return", description := "", types := some [] },
    { name := "link", description := "", link := some "https://cats.example" },
    { name := "see", description := "for more", refers := some "Cat::meow()" },
    { name := "since", description := "the kitten", version := some "3.2" },
    { name := "deprecated", description := "cats purr" },
    { name := "internal", description := "$quiet 4.0" }]

/-- The comment that is written of it is read back. -/
theorem interpret_render_purr : purr.Canonical ∧ purr.render false =
    "/**\n * Purrs\n * for a while.\n *\n * Louder than @most:\n *\n *   * when fed" ++
    "\n *   * when stroked\n *\n * @param int|null $times how often\n * at most\n * @return" ++
    "\n * @link https://cats.example\n * @see Cat::meow() for more\n * @since 3.2 the kitten" ++
    "\n * @deprecated cats purr\n * @internal $quiet 4.0\n */" ∧
    interpret (purr.render false) = purr := by
  have hcanonical : purr.Canonical := {
    summary := by decide +kernel
    full_stop := by decide +kernel
    summary_ne_empty := by decide +kernel
    description := by decide +kernel
    description_lines := by decide +kernel
    no_tag := by decide +kernel
    tags := by decide +kernel
    one_line := fun line hline => by
      have hlength := congrArg List.length hline
      have hmany : purr.parts.flatten.length ≠ 1 := by decide +kernel
      exact absurd hlength hmany }
  exact ⟨hcanonical, by decide +kernel, interpret_render hcanonical false⟩

end ApiCatalog.Docblock
