import ApiCatalog.Docblock.Lines
import ApiCatalog.Proofs.Text.Blank

/-!
# Writing a documentation comment

A comment is written as its delimiters with one starred line per line between them. Cleaning takes
all of that off again (`cleanLines_comment`), save that blank lines at both ends are lost and that
a comment with one line only must not look as if a tag started inside it.
-/

namespace ApiCatalog.Docblock

open Text

variable {line : List Char} {ls ls' core : List (List Char)}

/-! ## The comment -/

/-- A line behind its star. -/
def starLine (line : List Char) : List Char :=
  ' ' :: '*' :: if line = [] then [] else ' ' :: line

/-- The comment with these lines. -/
def comment (ls : List (List Char)) : List Char :=
  joinWith '\n' (['/', '*', '*'] :: (ls.map starLine ++ [[' ', '*', '/']]))

/-- A line that a comment can hold: one line, without blanks at its end. -/
structure IsLine (line : List Char) : Prop where
  one_line : '\n' ∉ line
  trimmed : trimEnd line = line

/-- Cleaning takes the star away again, and the blank behind it. -/
theorem cleanLine_starLine (h : trimEnd line = line) : cleanLine (starLine line) = line := by
  have hspace : isBlank ' ' = true := by decide
  have hstar : isBlank '*' = false := by decide
  by_cases hempty : line = []
  · subst hempty
    decide
  · have hstart : trimStart (starLine line) = '*' :: ' ' :: line := by
      simp [starLine, trimStart, hempty, hspace, hstar]
    rw [cleanLine, hstart]
    exact h

/-- No line of a comment ends in a carriage return. -/
theorem dropReturn_starLine (h : trimEnd line = line) :
    dropReturn (starLine line) = starLine line := by
  refine if_neg fun hlast => ?_
  rcases List.eq_nil_or_concat line with rfl | ⟨front, c, rfl⟩
  · cases hlast
  · have hc : isBlank c = false := isBlank_of_mem_getLast? h (by simp)
    have hreturn : c = '\r' := by simpa [starLine, List.getLast?_cons] using hlast
    rw [hreturn] at hc
    cases hc

/-- A last piece that is not empty is a line. -/
theorem linesOfPieces_append (ps : List (List Char)) {last : List Char} (hlast : last ≠ []) :
    linesOfPieces (ps ++ [last]) = ps.map dropReturn ++ [last] := by
  induction ps with
  | nil => simp [linesOfPieces, hlast]
  | cons p ps ih =>
    have hne : ps ++ [last] ≠ [] := by simp
    rw [List.cons_append, linesOfPieces, ih]
    · rfl
    · exact hne

/-- Between the delimiters stand the lines, one after the other. -/
theorem withoutDelimiters_comment (ls : List (List Char)) :
    withoutDelimiters (comment ls) = joinWith '\n' ([] :: (ls.map starLine ++ [[' ']])) := by
  have hstop : comment ls =
      joinWith '\n' (['/', '*', '*'] :: (ls.map starLine ++ [[' ']])) ++ ['*', '/'] :=
    joinWith_append_last [' '] ['*', '/'] (['/', '*', '*'] :: ls.map starLine)
  have hstart : joinWith '\n' (['/', '*', '*'] :: (ls.map starLine ++ [[' ']])) =
      ['/', '*', '*'] ++ joinWith '\n' ([] :: (ls.map starLine ++ [[' ']])) :=
    joinWith_append_cons ['/', '*', '*'] [] _
  have hclose : IsWord ['*', '/'] :=
    isWord_cons (by decide) (List.forall_mem_singleton.2 (by decide))
  have hopen : IsWord ['/', '*', '*'] :=
    isWord_cons (by decide) (List.forall_mem_cons.2
      ⟨by decide, List.forall_mem_singleton.2 (by decide)⟩)
  have hsolid := hopen.solid.append hclose.solid
    (joinWith '\n' ([] :: (ls.map starLine ++ [[' ']])))
  unfold withoutDelimiters
  rw [hstop, hstart, List.append_assoc, hsolid.trim_eq]
  simp only [dropStart?_eq_some_iff.2 rfl, dropStop?_eq_some_iff.2 rfl, Option.getD_some]

/-- The cleaned lines of a comment are the lines it was written with. -/
theorem clean_comment (h : ∀ line ∈ ls, IsLine line) :
    (lines (withoutDelimiters (comment ls))).map cleanLine = [] :: ls ++ [[]] := by
  -- The comment's lines, between an empty one after the opening and the blank one before the close.
  have hpieces : ∀ p ∈ [] :: (ls.map starLine ++ [[' ']]), '\n' ∉ p := by
    intro p hp
    rw [List.mem_cons, List.mem_append, List.mem_map, List.mem_singleton] at hp
    rcases hp with rfl | ⟨line, hline, rfl⟩ | rfl
    · decide
    · have hone := (h line hline).one_line
      unfold starLine
      split
      · decide
      · simpa using hone
    · decide
  -- No written line ends in a carriage return, so splitting into lines gives the written lines.
  have hreturns : (ls.map starLine).map dropReturn = ls.map starLine := by
    rw [List.map_map]
    exact List.map_congr_left fun line hline => dropReturn_starLine (h line hline).trimmed
  have hclean : (ls.map starLine).map cleanLine = ls := by
    rw [List.map_map]
    exact (List.map_congr_left fun line hline => cleanLine_starLine (h line hline).trimmed).trans
      (List.map_id _)
  -- What is left to see is that the text between the delimiters is these pieces joined.
  have hlines : lines (joinWith '\n' ([] :: (ls.map starLine ++ [[' ']]))) =
      [] :: ls.map starLine ++ [[' ']] := by
    rw [lines, splitOn_joinWith (by simp) hpieces]
    have happend := linesOfPieces_append ([] :: ls.map starLine) (List.cons_ne_nil ' ' [])
    rw [List.map_cons, hreturns] at happend
    exact happend
  rw [withoutDelimiters_comment, hlines, List.map_append, List.map_cons, hclean]
  rfl

/-! ## Blank lines at the ends -/

/-- The first and the last line are not blank. -/
structure Tight (ls : List (List Char)) : Prop where
  head : ∀ line ∈ ls.head?, isBlankLine line = false
  last : ∀ line ∈ ls.getLast?, isBlankLine line = false

theorem tight_nil : Tight [] := ⟨nofun, nofun⟩

/-- Tight lines behind tight lines are tight. -/
theorem Tight.append (h : Tight ls) (h' : Tight ls') : Tight (ls ++ ls') := by
  refine ⟨?_, ?_⟩
  · intro line hline
    rw [List.head?_append, Option.mem_def, Option.or_eq_some_iff] at hline
    rcases hline with hline | ⟨-, hline⟩
    · exact h.head line hline
    · exact h'.head line hline
  · intro line hline
    rw [List.getLast?_append, Option.mem_def, Option.or_eq_some_iff] at hline
    rcases hline with hline | ⟨-, hline⟩
    · exact h'.last line hline
    · exact h.last line hline

/-- Lines between tight ones do not matter. -/
theorem Tight.append_middle (h : Tight ls) (h' : Tight ls') (hne : ls ≠ []) (hne' : ls' ≠ [])
    (middle : List (List Char)) : Tight (ls ++ middle ++ ls') := by
  refine ⟨?_, ?_⟩
  · rw [List.append_assoc, List.head?_append_of_ne_nil _ hne]
    exact h.head
  · rw [List.getLast?_append_of_ne_nil _ hne']
    exact h'.last

/-- Blank lines are dropped up to the first one that is not. -/
theorem dropWhile_isBlankLine {front : List (List Char)}
    (hfront : ∀ line ∈ front, isBlankLine line = true)
    (hcore : ∀ line ∈ core.head?, isBlankLine line = false) :
    (front ++ core).dropWhile isBlankLine = core := by
  rw [List.dropWhile_append_of_pos hfront]
  cases core with
  | nil => rfl
  | cons line core => simp [hcore line rfl]

/-- Trimming takes the blank lines on both sides and leaves what is tight. -/
theorem trimBlankLines_tight {front back : List (List Char)} (hcore : Tight core)
    (hfront : ∀ line ∈ front, isBlankLine line = true)
    (hback : ∀ line ∈ back, isBlankLine line = true) :
    trimBlankLines (front ++ core ++ back) = core := by
  -- With nothing in the core every line is blank; else its first and last line stop the trimming.
  unfold trimBlankLines
  by_cases hempty : core = []
  · subst hempty
    have hall : ∀ line ∈ front ++ back, isBlankLine line = true := by
      intro line hline
      rcases List.mem_append.1 hline with hline | hline
      · exact hfront line hline
      · exact hback line hline
    rw [List.append_nil, List.dropWhile_eq_nil_iff.2 hall]
    rfl
  · have hhead : ∀ line ∈ (core ++ back).head?, isBlankLine line = false := by
      rw [List.head?_append_of_ne_nil _ hempty]
      exact hcore.head
    have hlast : ∀ line ∈ core.reverse.head?, isBlankLine line = false := by
      rw [List.head?_reverse]
      exact hcore.last
    have hback' : ∀ line ∈ back.reverse, isBlankLine line = true :=
      fun line hline => hback line (List.mem_reverse.1 hline)
    rw [List.append_assoc, dropWhile_isBlankLine hfront hhead, List.reverse_append,
      dropWhile_isBlankLine hback' hlast, List.reverse_reverse]

/-- The lines that a solid text is cut into start and end with one that is not blank. -/
theorem tight_splitOn {cs : List Char} (h : Solid cs) : Tight (splitOn '\n' cs) := by
  have hjoin : joinWith '\n' (splitOn '\n' cs) = cs := joinWith_splitOn cs
  have hbreak : isBlank '\n' = true := by decide
  -- A first line without characters would be a line break at the front of the text, which is solid.
  refine ⟨?_, ?_⟩
  · intro line hline
    obtain ⟨more, hsplit⟩ := List.head?_eq_some_iff.1 hline
    rw [hsplit] at hjoin
    cases line with
    | cons c line =>
      have hc := h.head c (by rw [← hjoin, head?_joinWith_cons (by simp)]; rfl)
      simp [isBlankLine, hc]
    | nil =>
      cases more with
      | nil => exact absurd hjoin.symm h.ne_nil
      | cons next more =>
        have hc := h.head '\n' (by rw [← hjoin, joinWith_cons_cons]; rfl)
        rw [hbreak] at hc
        cases hc
  -- The same at the other end, with the last character of the last line.
  · intro line hline
    obtain ⟨front, hsplit⟩ := List.getLast?_eq_some_iff.1 hline
    rw [hsplit] at hjoin
    rcases List.eq_nil_or_concat line with rfl | ⟨init, c, rfl⟩
    · by_cases hfront : front = []
      · subst hfront
        exact absurd hjoin.symm h.ne_nil
      · rw [joinWith_append_singleton _ hfront] at hjoin
        have hc := h.last '\n' (by rw [← hjoin]; simp)
        rw [hbreak] at hc
        cases hc
    · rw [List.concat_eq_append] at hjoin ⊢
      rw [joinWith_append_last] at hjoin
      have hc := h.last c (by rw [← hjoin]; simp)
      simp [isBlankLine, hc]

/-! ## The lines of a text -/

/-- The lines of a text; none if it is empty. -/
def linesOf (s : String) : List (List Char) := if s = "" then [] else splitOn '\n' s.toList

theorem linesOf_empty : linesOf "" = [] := rfl

theorem linesOf_of_ne_empty {s : String} (h : s ≠ "") : linesOf s = splitOn '\n' s.toList :=
  if_neg h

theorem linesOf_eq_nil {s : String} (h : linesOf s = []) : s = "" := by
  by_contra hne
  rw [linesOf_of_ne_empty hne] at h
  exact splitOn_ne_nil _ h

/-- The lines of a text make the text. -/
theorem joinWith_linesOf (s : String) : joinWith '\n' (linesOf s) = s.toList := by
  by_cases h : s = ""
  · subst h
    rfl
  · rw [linesOf_of_ne_empty h, joinWith_splitOn]

theorem no_newline_of_mem_linesOf {s : String} (h : line ∈ linesOf s) : '\n' ∉ line := by
  by_cases hs : s = ""
  · subst hs
    cases h
  · rw [linesOf_of_ne_empty hs] at h
    exact fun hbreak => (mem_of_mem_splitOn h hbreak).2 rfl

/-- The lines of a trimmed text are tight. -/
theorem tight_linesOf {s : String} (h : trim s.toList = s.toList) : Tight (linesOf s) := by
  by_cases hs : s = ""
  · subst hs
    exact tight_nil
  · rw [linesOf_of_ne_empty hs]
    exact tight_splitOn (solid_of_trim h (by simpa using hs))

/-! ## Comments with one line -/

/-- No tag starts behind a blank. -/
def NoInlineTag (line : List Char) : Prop :=
  ∀ front b rest, line = front ++ b :: rest → isBlank b = true → startsTag rest = false

/-- A line without an inline tag is not cut. -/
theorem cutAtTags_of_noInlineTag {afterBlank : Bool} (h : NoInlineTag line)
    (hstart : afterBlank = true → startsTag line = false) : cutAtTags afterBlank line = [line] := by
  induction line generalizing afterBlank with
  | nil => rfl
  | cons c rest ih =>
    have hrest : NoInlineTag rest := fun front b more heq =>
      h (c :: front) b more (by rw [heq, List.cons_append])
    have hcut := ih hrest fun hblank => h [] c rest rfl hblank
    have hhere : (afterBlank && startsTag (c :: rest)) = false := by
      cases afterBlank with
      | false => rfl
      | true => exact hstart rfl
    rw [cutAtTags, hcut, hhere]
    rfl

theorem inlineLines_of_noInlineTag (h : NoInlineTag line) : inlineLines line = [line] := by
  have hcut : cutAtTags false line = [line] :=
    cutAtTags_of_noInlineTag h fun hfalse => absurd hfalse Bool.false_ne_true
  rw [inlineLines, hcut]

/-- Cleaning a comment gives its lines back, apart from blank ones at both ends. -/
theorem cleanLines_comment {front back : List (List Char)}
    (h : ∀ line ∈ front ++ core ++ back, IsLine line) (hcore : Tight core)
    (hfront : ∀ line ∈ front, isBlankLine line = true)
    (hback : ∀ line ∈ back, isBlankLine line = true)
    (hone : ∀ line, core = [line] → NoInlineTag line) :
    cleanLines (comment (front ++ core ++ back)) = core := by
  -- The empty lines that the delimiters leave count with the blank ones at either end.
  have hwhole :
      [] :: (front ++ core ++ back) ++ [[]] = ([] :: front) ++ core ++ (back ++ [[]]) := by
    simp
  have hfront' : ∀ line ∈ [] :: front, isBlankLine line = true :=
    List.forall_mem_cons.2 ⟨rfl, hfront⟩
  have hback' : ∀ line ∈ back ++ [[]], isBlankLine line = true := by
    intro line hline
    rcases List.mem_append.1 hline with hline | hline
    · exact hback line hline
    · rw [List.mem_singleton.1 hline]
      rfl
  rw [cleanLines, clean_comment h, hwhole, trimBlankLines_tight hcore hfront' hback']
  -- Only a lone line is searched for an inline tag.
  cases core with
  | nil => rfl
  | cons line core =>
    cases core with
    | nil => exact inlineLines_of_noInlineTag (hone line rfl)
    | cons next core => rfl

end ApiCatalog.Docblock
