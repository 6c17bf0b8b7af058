import ApiCatalog.Docblock.Interpret
import ApiCatalog.Proofs.Docblock.Lines

/-!
# The layout of a comment does not matter

A text is laid out anew by indenting its lines further and by ending some of them with a carriage
return and a line feed. Both texts can be walked side by side (`Relaid`): the new one has gaps where
a line starts and carriage returns where a line ends, and is the old one otherwise. Trimming and
taking off the delimiters keep it so, except that the first lines then start alike. What is left are
the same lines but for blanks at their ends, and a line is cleaned of those. So the cleaned lines
are the same, and with them all that the comment says (`interpret_relay`).
-/

namespace ApiCatalog.Docblock

open Text

variable {atStart : Bool} {old new line : List Char} {ls back : List (List Char)} {c : Char}

/-! ## Laying out a text -/

/-- How a line is laid out: the spaces and tabs put in front of it, and whether a carriage return is
put in front of the line feed that ends it. -/
structure Layout where
  indent : List Char
  returns : Bool
  indent_gap : ∀ c ∈ indent, c = ' ' ∨ c = '\t'

/-- What ends a line that is laid out so. -/
def Layout.ending (l : Layout) : List Char := if l.returns then ['\r', '\n'] else ['\n']

/-- The lines as one text, each in its layout. Nothing ends the last one. -/
def relayLines (layout : Nat → Layout) : List (List Char) → List Char
  | [] => []
  | [line] => (layout 0).indent ++ line
  | line :: more =>
    (layout 0).indent ++ (line ++ ((layout 0).ending ++ relayLines (fun n => layout (n + 1)) more))

/-- The text with each of its lines in a layout of its own. -/
def relay (layout : Nat → Layout) (raw : String) : String :=
  .ofList (relayLines layout (splitOn '\n' raw.toList))

/-- The new text is the old one laid out anew. `atStart` tells whether a line starts with the texts,
so that an indentation may stand there. -/
inductive Relaid : Bool → List Char → List Char → Prop
  | nil {atStart : Bool} : Relaid atStart [] []
  | indent {c : Char} {old new : List Char} (hgap : c = ' ' ∨ c = '\t') (h : Relaid true old new) :
      Relaid true old (c :: new)
  | char {atStart : Bool} {c : Char} {old new : List Char} (hc : c ≠ '\n')
      (h : Relaid false old new) : Relaid atStart (c :: old) (c :: new)
  | lineFeed {atStart : Bool} {old new : List Char} (h : Relaid true old new) :
      Relaid atStart ('\n' :: old) ('\n' :: new)
  | carriageReturn {atStart : Bool} {old new : List Char} (h : Relaid true old new) :
      Relaid atStart ('\n' :: old) ('\r' :: '\n' :: new)

/-- Where an indentation may stand, none needs to. -/
theorem Relaid.of_false (h : Relaid false old new) : Relaid true old new := by
  cases h with
  | nil => exact .nil
  | char hc h => exact .char hc h
  | lineFeed h => exact .lineFeed h
  | carriageReturn h => exact .carriageReturn h

/-- What a line holds is the same in both texts. -/
theorem Relaid.line_append (h : Relaid false old new) (hline : '\n' ∉ line) :
    Relaid false (line ++ old) (line ++ new) := by
  induction line with
  | nil => exact h
  | cons c line ih =>
    obtain ⟨hc, hline⟩ := not_or.1 (mt List.mem_cons.2 hline)
    exact .char (Ne.symm hc) (ih hline)

theorem Relaid.indent_append (h : Relaid true old new) {gap : List Char}
    (hgap : ∀ c ∈ gap, c = ' ' ∨ c = '\t') : Relaid true old (gap ++ new) := by
  induction gap with
  | nil => exact h
  | cons c gap ih =>
    obtain ⟨hc, hgap⟩ := List.forall_mem_cons.1 hgap
    exact .indent hc (ih hgap)

theorem Layout.relaid_ending (l : Layout) (h : Relaid true old new) :
    Relaid false ('\n' :: old) (l.ending ++ new) := by
  unfold Layout.ending
  split
  · exact .carriageReturn h
  · exact .lineFeed h

/-- Lines in their layouts are the lines as they were, laid out anew. -/
theorem relaid_relayLines (layout : Nat → Layout) (h : ∀ line ∈ ls, '\n' ∉ line) :
    Relaid true (joinWith '\n' ls) (relayLines layout ls) := by
  induction ls generalizing layout with
  | nil => exact .nil
  | cons line ls ih =>
    obtain ⟨hline, hmore⟩ := List.forall_mem_cons.1 h
    cases ls with
    | nil =>
      have hlast : Relaid false (line ++ []) (line ++ []) := Relaid.nil.line_append hline
      rw [List.append_nil] at hlast
      exact hlast.of_false.indent_append (layout 0).indent_gap
    | cons next ls =>
      have hrest := (layout 0).relaid_ending (ih (fun n => layout (n + 1)) hmore)
      exact (hrest.line_append hline).of_false.indent_append (layout 0).indent_gap

theorem relaid_relay (layout : Nat → Layout) (raw : String) :
    Relaid true raw.toList (relay layout raw).toList := by
  have hlines : ∀ line ∈ splitOn '\n' raw.toList, '\n' ∉ line :=
    fun line hline hbreak => (mem_of_mem_splitOn hline hbreak).2 rfl
  have hrelaid := relaid_relayLines layout hlines
  rwa [joinWith_splitOn, ← String.toList_ofList (l := relayLines layout _)] at hrelaid

example : relay (fun n => ⟨['\t', ' '], n == 0, by simp⟩) "/** One.\n *\n * Two. */" =
    "\t /** One.\r\n\t  *\n\t  * Two. */" := by decide +kernel

/-! ## Trimming -/

theorem isBlank_of_gap (h : c = ' ' ∨ c = '\t') : isBlank c = true := by
  rcases h with rfl | rfl
  · decide
  · decide

/-- Without the blanks in front of them, both texts start alike. -/
theorem Relaid.trimStart (h : Relaid atStart old new) :
    Relaid false (trimStart old) (trimStart new) := by
  induction h with
  | nil => exact .nil
  | indent hgap _ ih => rwa [trimStart_cons_blank (isBlank_of_gap hgap)]
  | @char _ c _ _ hc h ih =>
    cases hblank : isBlank c with
    | true => rwa [trimStart_cons_blank hblank, trimStart_cons_blank hblank]
    | false =>
      rw [trimStart_cons hblank, trimStart_cons hblank]
      exact .char hc h
  | lineFeed _ ih => rwa [trimStart_cons_blank (by decide), trimStart_cons_blank (by decide)]
  | carriageReturn _ ih =>
    rwa [trimStart_cons_blank (by decide), trimStart_cons_blank (by decide),
      trimStart_cons_blank (by decide)]

/-- There is nothing but blanks in both texts or in neither. -/
theorem Relaid.trimEnd_eq_nil_iff (h : Relaid atStart old new) :
    trimEnd old = [] ↔ trimEnd new = [] := by
  have hreturn : isBlank '\r' = true := by decide
  have hfeed : isBlank '\n' = true := by decide
  simp only [trimEnd, dropEndWhile, List.reverse_eq_nil_iff, List.dropWhile_eq_nil_iff,
    List.mem_reverse]
  induction h with
  | nil => rfl
  | indent hgap _ ih => simp [ih, isBlank_of_gap hgap]
  | char _ _ ih => simp [ih]
  | lineFeed _ ih => simp [ih]
  | carriageReturn _ ih => simp [ih, hreturn, hfeed]

/-- Without the blanks behind them, both texts stay as they are in front. -/
theorem Relaid.trimEnd (h : Relaid atStart old new) :
    Relaid atStart (trimEnd old) (trimEnd new) := by
  -- Blanks at the end go on both sides together, since a relaid text is blank just if the other is.
  induction h with
  | nil => exact .nil
  | @indent c old new hgap h ih =>
    rw [trimEnd_cons_eq c new]
    split
    · -- With nothing behind it the indentation goes too, and nothing is left of either text.
      next hnothing => rwa [← hnothing.1]
    · exact .indent hgap ih
  | @char _ c old new hc h ih =>
    rw [trimEnd_cons_eq c old, trimEnd_cons_eq c new]
    simp only [h.trimEnd_eq_nil_iff]
    split
    · exact .nil
    · exact .char hc ih
  | @lineFeed _ old new h ih =>
    rw [trimEnd_cons_eq _ old, trimEnd_cons_eq _ new]
    simp only [h.trimEnd_eq_nil_iff]
    split
    · exact .nil
    · exact .lineFeed ih
  -- The return in front of the line break is a blank that only the new text has.
  | @carriageReturn _ old new h ih =>
    rw [trimEnd_cons_eq _ old, trimEnd_cons_eq _ ('\n' :: new), trimEnd_cons_eq _ new]
    simp only [h.trimEnd_eq_nil_iff]
    by_cases hnothing : Text.trimEnd new = []
    · have hreturn : isBlank '\r' = true := by decide
      have hfeed : isBlank '\n' = true := by decide
      simp only [hnothing, hfeed, hreturn, and_self, if_true]
      exact .nil
    · have hsome : ¬('\n' :: Text.trimEnd new = []) := by simp
      simp only [hnothing, hsome, false_and, if_false]
      exact .carriageReturn ih

theorem Relaid.trim (h : Relaid atStart old new) : Relaid false (trim old) (trim new) :=
  h.trimStart.trimEnd

/-! ## Delimiters -/

/-- A text that holds no line end starts the new text if it starts the old one. -/
theorem Relaid.exists_new {start : List Char} (hfeed : '\n' ∉ start)
    (h : Relaid false (start ++ old) new) :
    ∃ rest, new = start ++ rest ∧ Relaid false old rest := by
  induction start generalizing new with
  | nil => exact ⟨new, rfl, h⟩
  | cons c start ih =>
    obtain ⟨hc, hfeed⟩ := not_or.1 (mt List.mem_cons.2 hfeed)
    cases h with
    | char _ h =>
      obtain ⟨rest, rfl, hrest⟩ := ih hfeed h
      exact ⟨rest, rfl, hrest⟩
    | lineFeed => exact absurd rfl hc
    | carriageReturn => exact absurd rfl hc

/-- A text that holds no line end starts the old text if it starts the new one. -/
theorem Relaid.exists_old {start : List Char} (hfeed : '\n' ∉ start) (hreturn : '\r' ∉ start)
    (h : Relaid false old (start ++ new)) :
    ∃ rest, old = start ++ rest ∧ Relaid false rest new := by
  induction start generalizing old with
  | nil => exact ⟨old, rfl, h⟩
  | cons c start ih =>
    obtain ⟨hc, hfeed⟩ := not_or.1 (mt List.mem_cons.2 hfeed)
    obtain ⟨hc', hreturn⟩ := not_or.1 (mt List.mem_cons.2 hreturn)
    rw [List.cons_append] at h
    generalize hwhole : start ++ new = whole at h
    cases h with
    | char _ h =>
      rw [← hwhole] at h
      obtain ⟨rest, rfl, hrest⟩ := ih hfeed hreturn h
      exact ⟨rest, rfl, hrest⟩
    | lineFeed => exact absurd rfl hc
    | carriageReturn => exact absurd rfl hc'

/-- The delimiter in front is taken off both texts or off neither. -/
theorem Relaid.dropStart {start : List Char} (hfeed : '\n' ∉ start) (hreturn : '\r' ∉ start)
    (h : Relaid false old new) :
    Relaid false ((dropStart? start old).getD old) ((dropStart? start new).getD new) := by
  cases hold : dropStart? start old with
  | some rest =>
    rw [dropStart?_eq_some_iff.1 hold] at h
    obtain ⟨rest', hnew, hrest⟩ := h.exists_new hfeed
    rwa [dropStart?_eq_some_iff.2 hnew]
  | none =>
    cases hnew : dropStart? start new with
    | none => exact h
    | some rest' =>
      rw [dropStart?_eq_some_iff.1 hnew] at h
      obtain ⟨rest, hstart, -⟩ := h.exists_old hfeed hreturn
      rw [dropStart?_eq_some_iff.2 hstart] at hold
      cases hold

/-- The texts end in a slash together, with nothing in front of it on its line. -/
theorem Relaid.eq_slash_iff (h : Relaid false old new) : old = ['/'] ↔ new = ['/'] := by
  cases h with
  | nil => rfl
  | @char _ c old new _ h =>
    constructor
    · rintro ⟨⟩
      cases h
      rfl
    · rintro ⟨⟩
      cases h
      rfl
  | lineFeed => simp
  | carriageReturn => simp

/-- The delimiter at the end is taken off both texts or off neither. -/
theorem Relaid.dropStop (h : Relaid atStart old new) :
    Relaid atStart ((dropStop? ['*', '/'] old).getD old) ((dropStop? ['*', '/'] new).getD new) := by
  -- No indentation and no line end can be part of the delimiter.
  induction h with
  | nil => exact .nil
  | @indent c old new hgap h ih =>
    have hc : c :: new ≠ ['*', '/'] := by
      rintro ⟨⟩
      simp at hgap
    rw [getD_dropStop?_cons _ c new, if_neg hc]
    exact .indent hgap ih
  | @char _ c old new hc h ih =>
    have hwhole : c :: old = ['*', '/'] ↔ c :: new = ['*', '/'] := by
      rw [List.cons.injEq, List.cons.injEq, h.eq_slash_iff]
    rw [getD_dropStop?_cons _ c old, getD_dropStop?_cons _ c new]
    simp only [hwhole]
    split
    · exact .nil
    · exact .char hc ih
  | lineFeed _ ih =>
    rw [getD_dropStop?_cons, getD_dropStop?_cons, if_neg (by simp), if_neg (by simp)]
    exact .lineFeed ih
  | carriageReturn _ ih =>
    rw [getD_dropStop?_cons, getD_dropStop?_cons, getD_dropStop?_cons, if_neg (by simp),
      if_neg (by simp), if_neg (by simp)]
    exact .carriageReturn ih

theorem Relaid.withoutDelimiters (h : Relaid atStart old new) :
    Relaid false (withoutDelimiters old) (withoutDelimiters new) :=
  (h.trim.dropStart (by decide) (by decide)).dropStop

/-! ## Lines -/

theorem cleanLine_cons_blank (hc : isBlank c = true) : cleanLine (c :: line) = cleanLine line := by
  rw [cleanLine, trimStart_cons_blank hc, cleanLine]

/-- The text without one star in front and one space behind that star. -/
def withoutStar : List Char → List Char
  | '*' :: ' ' :: rest => rest
  | '*' :: rest => rest
  | rest => rest

theorem cleanLine_eq (line : List Char) :
    cleanLine line = trimEnd (withoutStar (trimStart line)) := by
  unfold cleanLine withoutStar
  rfl

/-- A blank at the end does not matter to what is left of a starred line. -/
theorem trimEnd_withoutStar_append (hc : isBlank c = true) (cs : List Char) :
    trimEnd (withoutStar (cs ++ [c])) = trimEnd (withoutStar cs) := by
  have hlast : ∀ cs, trimEnd (cs ++ [c]) = trimEnd cs := fun cs => trimEnd_append_blank hc
  have hstar : c ≠ '*' := by
    rintro rfl
    exact absurd hc (by decide)
  cases cs with
  | nil => simpa [withoutStar, hstar] using hlast []
  | cons d rest =>
    by_cases hd : d = '*'
    · subst hd
      cases rest with
      | nil =>
        -- The blank may be the space behind the star.
        by_cases hspace : c = ' '
        · rw [hspace]
          rfl
        · simpa [withoutStar, hspace] using hlast []
      | cons e rest =>
        by_cases hspace : e = ' '
        · subst hspace
          exact hlast rest
        · simpa [withoutStar, hspace] using hlast (e :: rest)
    · simpa [withoutStar, hd] using hlast (d :: rest)

theorem cleanLine_append_blank (hc : isBlank c = true) :
    cleanLine (line ++ [c]) = cleanLine line := by
  rw [cleanLine_eq, cleanLine_eq, trimStart, trimStart, List.dropWhile_append]
  split
  · next hnothing =>
    have hblank : [c].dropWhile isBlank = [] := by simp [hc]
    rw [List.isEmpty_iff.1 hnothing, hblank]
  · exact trimEnd_withoutStar_append hc _

/-- The pieces of the text between its line feeds, each cleaned like a line. -/
def cleanPieces (cs : List Char) : List (List Char) := (splitOn '\n' cs).map cleanLine

/-- A space or a tab in front belongs to the first piece, which is cleaned of it. -/
theorem cleanPieces_cons_gap (hgap : c = ' ' ∨ c = '\t') (cs : List Char) :
    cleanPieces (c :: cs) = cleanPieces cs := by
  have hc : c ≠ '\n' := by
    rintro rfl
    simp at hgap
  have hne : splitOn '\n' cs ≠ [] := splitOn_ne_nil cs
  obtain ⟨first, more, hcs⟩ := List.exists_cons_of_ne_nil hne
  rw [cleanPieces, cleanPieces, splitOn, if_neg hc, hcs, List.map_cons, List.map_cons,
    cleanLine_cons_blank (isBlank_of_gap hgap)]

theorem cleanPieces_line_append (hline : '\n' ∉ line) (cs : List Char) :
    cleanPieces (line ++ '\n' :: cs) = cleanLine line :: cleanPieces cs := by
  rw [cleanPieces, cleanPieces, splitOn_append_cons, splitOn_of_not_mem hline]
  rfl

/-- Both texts have the same cleaned pieces, also behind a line that was begun alike. -/
theorem Relaid.cleanPieces_eq (h : Relaid atStart old new) (hline : '\n' ∉ line)
    (hstart : atStart = true → line = []) :
    cleanPieces (line ++ new) = cleanPieces (line ++ old) := by
  -- `line` is what has been read of the current line; it is the same on both sides.
  have hempty : '\n' ∉ ([] : List Char) := List.not_mem_nil
  induction h generalizing line with
  | nil => rfl
  | indent hgap h ih =>
    obtain rfl := hstart rfl
    exact (cleanPieces_cons_gap hgap _).trans (ih hempty hstart)
  | @char _ c old new hc h ih =>
    have hline' : '\n' ∉ line ++ [c] := by simp [hline, Ne.symm hc]
    have hrest := ih hline' nofun
    rwa [List.append_assoc, List.append_assoc] at hrest
  | @lineFeed _ old new h ih =>
    have hrest : cleanPieces new = cleanPieces old := ih hempty fun _ => rfl
    rw [cleanPieces_line_append hline, cleanPieces_line_append hline, hrest]
  | @carriageReturn _ old new h ih =>
    have hline' : '\n' ∉ line ++ ['\r'] := by simp [hline]
    have hrest : cleanPieces new = cleanPieces old := ih hempty fun _ => rfl
    -- The return ends the line it stands in, and cleaning the line trims it.
    calc cleanPieces (line ++ '\r' :: '\n' :: new)
        = cleanPieces ((line ++ ['\r']) ++ '\n' :: new) := by rw [List.append_assoc]; rfl
      _ = cleanLine (line ++ ['\r']) :: cleanPieces new := cleanPieces_line_append hline' new
      _ = cleanLine line :: cleanPieces old := by rw [cleanLine_append_blank (by decide), hrest]
      _ = cleanPieces (line ++ '\n' :: old) := (cleanPieces_line_append hline old).symm

/-- A carriage return at the end of a line is cleaned away. -/
theorem cleanLine_dropReturn (line : List Char) : cleanLine (dropReturn line) = cleanLine line := by
  unfold dropReturn
  split
  · next hreturn =>
    obtain ⟨front, rfl⟩ := List.getLast?_eq_some_iff.1 hreturn
    rw [List.dropLast_concat, cleanLine_append_blank (by decide)]
  · rfl

/-- The lines of a text are its pieces, but for an empty one at the end. -/
theorem exists_cleanPieces_eq (cs : List Char) :
    ∃ back, cleanPieces cs = (lines cs).map cleanLine ++ back ∧
      ∀ line ∈ back, isBlankLine line = true := by
  unfold cleanPieces lines
  generalize splitOn '\n' cs = pieces
  induction pieces using linesOfPieces.induct with
  | case1 => exact ⟨[], rfl, nofun⟩
  | case2 last hempty =>
    obtain rfl := List.isEmpty_iff.1 hempty
    exact ⟨[[]], rfl, by decide⟩
  | case3 last hsome => exact ⟨[], by rw [linesOfPieces, if_neg hsome, List.append_nil], nofun⟩
  | case4 piece pieces hne ih =>
    obtain ⟨back, hback, hblank⟩ := ih
    refine ⟨back, ?_, hblank⟩
    rw [linesOfPieces, List.map_cons, List.map_cons, hback, cleanLine_dropReturn,
      List.cons_append]
    exact hne

/-- Blank lines at the end are dropped. -/
theorem trimBlankLines_append (hback : ∀ line ∈ back, isBlankLine line = true) :
    trimBlankLines (ls ++ back) = trimBlankLines ls := by
  have hreverse : back.reverse.dropWhile isBlankLine = [] := by
    simpa using hback
  unfold trimBlankLines
  rw [List.dropWhile_append]
  split
  · next hnothing =>
    rw [List.isEmpty_iff.1 hnothing, List.dropWhile_eq_nil_iff.2 hback]
  · rw [List.reverse_append, List.dropWhile_append, hreverse]
    rfl

theorem trimBlankLines_cleanPieces (cs : List Char) :
    trimBlankLines (cleanPieces cs) = trimBlankLines ((lines cs).map cleanLine) := by
  obtain ⟨back, hpieces, hback⟩ := exists_cleanPieces_eq cs
  rw [hpieces, trimBlankLines_append hback]

/-! ## Comments -/

theorem Relaid.cleanLines_eq (h : Relaid atStart old new) : cleanLines new = cleanLines old := by
  have hpieces : cleanPieces (Docblock.withoutDelimiters new) =
      cleanPieces (Docblock.withoutDelimiters old) :=
    h.withoutDelimiters.cleanPieces_eq List.not_mem_nil fun _ => rfl
  rw [cleanLines, cleanLines, ← trimBlankLines_cleanPieces, ← trimBlankLines_cleanPieces, hpieces]

/-- A comment says the same however its lines are indented and whichever of their ends are written
with a carriage return. -/
theorem interpret_relay (layout : Nat → Layout) (raw : String) :
    interpret (relay layout raw) = interpret raw := by
  rw [interpret, interpret, (relaid_relay layout raw).cleanLines_eq]

end ApiCatalog.Docblock
