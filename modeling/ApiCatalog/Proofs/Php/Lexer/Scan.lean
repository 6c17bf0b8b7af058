import ApiCatalog.Proofs.Php.Lexer.Text
import Mathlib.Data.List.Find

/-!
# Scans of a text with the end of a statement in it

A text has a semicolon, a closing brace or a colon `e` in it, and a scan starts in front of that.
Either the scan is done there, and takes the same whatever stands behind `e`, or it takes `e` along:
no scan of this language looks over `e` to decide on what stands in front of it (`Settled`). There is
one lemma for every way of scanning: comments, quoted and other text, numbers and symbols.
-/

namespace ApiCatalog.Php

/-- A character that ends a statement. -/
def isEnd (c : Char) : Bool := [';', '\x7d', ':'].contains c

/-- A statement ends with a semicolon, a brace or a colon. -/
theorem isEnd_iff {e : Char} : isEnd e ↔ e = ';' ∨ e = '\x7d' ∨ e = ':' := by
  simp [isEnd]

variable {α β : Type} {e : Char} {x y : List Char} {p : Char → Bool}
  {f : List Char → Option (α × List Char)} {f' : List Char → Option (β × List Char)}

/-- The scan is done in front of the end `e` of the text, whatever stands behind it. -/
def DoneIn (e : Char) (f : List Char → Option (α × List Char)) (x : List Char) : Prop :=
  ∃ a r, ∀ w, f (x ++ e :: w) = some (a, r ++ e :: w)

/-- The scan finds nothing, whatever stands behind the end `e` of the text. -/
def FailsIn (e : Char) (f : List Char → Option (α × List Char)) (x : List Char) : Prop :=
  ∀ w, f (x ++ e :: w) = none

/-- The scan takes the end `e` of the text along, where it finds something. -/
def GoesPast (e : Char) (f : List Char → Option (α × List Char)) (x : List Char) : Prop :=
  ∀ w a rest, f (x ++ e :: w) = some (a, rest) → rest.length ≤ w.length

/-- What the scan takes of a text does not depend on what stands behind the end `e`, if the end
is no part of it. -/
def Settled (e : Char) (f : List Char → Option (α × List Char)) (x : List Char) : Prop :=
  DoneIn e f x ∨ GoesPast e f x

/-- A scan that begins with some characters and goes on like a settled one is settled. -/
theorem Settled.of_map (h : Settled e f y) (g : α → β)
    (hstep : ∀ w, f' (x ++ e :: w) = (f (y ++ e :: w)).map fun (a, r) => (g a, r)) :
    Settled e f' x := by
  rcases h with ⟨a, r, hdone⟩ | hpast
  · exact .inl ⟨g a, r, fun w => by rw [hstep, hdone]; rfl⟩
  · refine .inr fun w b rest hrun => ?_
    rw [hstep] at hrun
    obtain ⟨⟨a, rest'⟩, hf, heq⟩ := Option.map_eq_some_iff.1 hrun
    cases heq
    exact hpast w a rest hf

/-- A scan that goes on behind the end. -/
theorem Settled.of_behind (hf : ∀ cs a rest, f cs = some (a, rest) → rest.length ≤ cs.length)
    (g : α → β) (hstep : ∀ w, f' (x ++ e :: w) = (f w).map fun (a, r) => (g a, r)) :
    Settled e f' x := by
  refine .inr fun w b rest hrun => ?_
  rw [hstep] at hrun
  obtain ⟨⟨a, rest'⟩, hscan, heq⟩ := Option.map_eq_some_iff.1 hrun
  cases heq
  exact hf w a rest hscan

/-- A scan that stops at a fixed place is settled. -/
theorem Settled.of_done (a : α) (r : List Char) (h : ∀ w, f (x ++ e :: w) = some (a, r ++ e :: w)) :
    Settled e f x := .inl ⟨a, r, h⟩

/-- What is left of a text is no longer than the text. -/
theorem length_le_of_append {a r cs : List Char} (h : a ++ r = cs) : r.length ≤ cs.length := by
  rw [← h, List.length_append]
  exact Nat.le_add_left _ _

/-- Taking characters of a kind stops at the end of the text, if the end is of another kind. -/
theorem takeWhile_end (hp : p e = false) (x w : List Char) :
    (x ++ e :: w).takeWhile p = x.takeWhile p := by
  induction x with
  | nil => simp [hp]
  | cons c x ih => simp [List.takeWhile_cons, ih]

/-- What is left then starts with the end of the text, or in front of it. -/
theorem dropWhile_end (hp : p e = false) (x w : List Char) :
    (x ++ e :: w).dropWhile p = x.dropWhile p ++ e :: w := by
  induction x with
  | nil => simp [hp]
  | cons c x ih =>
    rw [List.cons_append, List.dropWhile_cons, List.dropWhile_cons, ih]
    split <;> rfl

/-! ## Comments -/

/-- A line comment ends with its line, or takes the end along. -/
theorem settled_lineComment (he : isEnd e) (x : List Char) :
    Settled e (fun cs => some (scanLineComment cs)) x := by
  induction x with
  | nil =>
    refine .of_behind (f := fun cs => some (scanLineComment cs)) ?_ (e :: ·) fun w => ?_
    · intro cs a rest h
      exact length_le_of_append (Option.some.inj h ▸ scanLineComment_append cs)
    · rcases isEnd_iff.1 he with rfl | rfl | rfl <;> simp [scanLineComment]
  | cons c x ih =>
    by_cases h : c == '\n' || c == '\r' || (c == '?' && x.head?.or (some e) == some '>')
    · refine .of_done [] (c :: x) fun w => ?_
      simp_all [scanLineComment]
    · refine ih.of_map (c :: ·) fun w => ?_
      simp_all [scanLineComment]

/-- A comment that is not closed in front of the end takes it along. -/
theorem settled_blockComment (he : isEnd e) (x : List Char) : Settled e scanBlockComment x := by
  induction x with
  | nil =>
    refine .of_behind (fun cs a rest h => length_le_of_append (scanBlockComment_append h)) (e :: ·)
      fun w => ?_
    rcases isEnd_iff.1 he with rfl | rfl | rfl <;> simp [scanBlockComment]
  | cons c x ih =>
    by_cases h : c = '*' ∧ x.head? = some '/'
    · obtain ⟨rfl, h⟩ := h
      obtain ⟨x, rfl⟩ := List.head?_eq_some_iff.1 h
      exact .of_done ['*', '/'] x fun w => rfl
    · refine ih.of_map (c :: ·) fun w => ?_
      rw [List.cons_append, scanBlockComment]
      rintro rest rfl hrest
      cases x with
      | nil => rcases isEnd_iff.1 he with rfl | rfl | rfl <;> cases hrest
      | cons d x => cases hrest; exact h ⟨rfl, rfl⟩

/-! ## Text -/

theorem settled_quoted (he : isEnd e) : ∀ x, Settled e scanQuoted x
  -- Two characters at a time, as a backslash takes the one behind it along, whichever it is.
  | [] => by
    refine .of_behind (fun cs a rest h => length_le_of_append (scanQuoted_append h)) (e :: ·)
      fun w => ?_
    rcases isEnd_iff.1 he with rfl | rfl | rfl <;> simp [scanQuoted]
  | [c] => by
    -- A backslash right in front of the end takes the end itself along.
    by_cases hc : c = '\\'
    · subst hc
      exact .of_behind (fun cs a rest h => length_le_of_append (scanQuoted_append h))
        (fun a => '\\' :: e :: a) fun w => rfl
    · by_cases hq : c = '\''
      · subst hq
        exact .of_done ['\''] [] fun w => rfl
      · refine (settled_quoted he []).of_map (c :: ·) fun w => ?_
        simp [scanQuoted, hc]
  | c :: d :: x => by
    by_cases hc : c = '\\'
    · subst hc
      exact (settled_quoted he x).of_map (fun a => '\\' :: d :: a) fun w => rfl
    · by_cases hq : c = '\''
      · subst hq
        exact .of_done ['\''] (d :: x) fun w => rfl
      · refine (settled_quoted he (d :: x)).of_map (c :: ·) fun w => ?_
        simp [scanQuoted, hc]

/-- A word without the end of the text is found in front of it or not at all. -/
theorem isPrefixOf_end {word : List Char} (h : e ∉ word) (x w : List Char) :
    word.isPrefixOf (x ++ e :: w) = word.isPrefixOf x := by
  induction word generalizing x with
  | nil => simp
  | cons c word ih =>
    rw [List.mem_cons, not_or] at h
    cases x with
    | nil => simp [List.isPrefixOf, Ne.symm h.1]
    | cons d x => simp [List.isPrefixOf, ih h.2]

theorem labelAt?_end {label : String} (he : isEnd e) (h : e ∉ label.toList) (x : List Char) :
    FailsIn e (labelAt? label) x ∨ DoneIn e (labelAt? label) x := by
  -- The label avoids the end, so whether it stands there is seen in front of the end.
  have hgap : isGap e = false := by rcases isEnd_iff.1 he with rfl | rfl | rfl <;> rfl
  by_cases hprefix : label.toList <+: x.dropWhile isGap
  · obtain ⟨after, hafter⟩ := hprefix
    have hscan : ∀ w, labelAt? label (x ++ e :: w) =
        if !(after.head?.or (some e)).any isNamePart then
          some (x.takeWhile isGap ++ label.toList, after ++ e :: w)
        else none := by
      intro w
      unfold labelAt?
      simp only [takeWhile_end hgap, dropWhile_end hgap, ← hafter, List.append_assoc, List.drop_left]
      simp
    -- A name going on behind the label means another word; the end is no part of a name.
    by_cases hname : (after.head?.or (some e)).any isNamePart
    · exact .inl fun w => by rw [hscan, hname]; rfl
    · exact .inr ⟨_, after, fun w => by rw [hscan, eq_false_of_ne_true hname]; rfl⟩
  · refine .inl fun w => ?_
    unfold labelAt?
    have hfalse : label.toList.isPrefixOf (x.dropWhile isGap) = false := by
      rw [← Bool.not_eq_true, List.isPrefixOf_iff_prefix]
      exact hprefix
    simp only [dropWhile_end hgap, isPrefixOf_end h, hfalse]
    rfl

/-- A scan that begins with some characters and goes on like one that is done is done. -/
theorem DoneIn.map (h : DoneIn e f y) (g : α → β)
    (hstep : ∀ w, f' (x ++ e :: w) = (f (y ++ e :: w)).map fun (a, r) => (g a, r)) :
    DoneIn e f' x := by
  obtain ⟨a, r, hdone⟩ := h
  exact ⟨g a, r, fun w => by rw [hstep, hdone]; rfl⟩

/-- One that goes on like a failing scan fails. -/
theorem FailsIn.map (h : FailsIn e f y) (g : α → β)
    (hstep : ∀ w, f' (x ++ e :: w) = (f (y ++ e :: w)).map fun (a, r) => (g a, r)) :
    FailsIn e f' x := fun w => by rw [hstep, h]; rfl

/-- The end of a document is found in front of the end of the text or not at all. -/
theorem heredocEnd?_end {label : String} (he : isEnd e) (h : e ∉ label.toList) (x : List Char) :
    FailsIn e (heredocEnd? label) x ∨ DoneIn e (heredocEnd? label) x := by
  -- Neither kind of line break begins here, so there is no closing label.
  have hother : ∀ {x : List Char}, (∀ w rest, x ++ e :: w = '\n' :: rest → False) →
      (∀ w rest, x ++ e :: w = '\r' :: '\n' :: rest → False) → FailsIn e (heredocEnd? label) x := by
    intro x hlf hcrlf w
    rw [heredocEnd?]
    · exact hlf w
    · exact hcrlf w
  cases x with
  | nil =>
    refine .inl (hother ?_ ?_) <;> (rcases isEnd_iff.1 he with rfl | rfl | rfl <;> simp)
  | cons c x =>
    by_cases hlf : c = '\n'
    · subst hlf
      exact (labelAt?_end he h x).imp (fun hfails => hfails.map ('\n' :: ·) fun w => rfl)
        fun hdone => hdone.map ('\n' :: ·) fun w => rfl
    -- A carriage return counts only together with the line feed behind it.
    · by_cases hcrlf : c = '\r' ∧ x.head? = some '\n'
      · obtain ⟨rfl, hhead⟩ := hcrlf
        obtain ⟨x, rfl⟩ := List.head?_eq_some_iff.1 hhead
        exact (labelAt?_end he h x).imp
          (fun hfails => hfails.map (fun a => '\r' :: '\n' :: a) fun w => rfl)
          fun hdone => hdone.map (fun a => '\r' :: '\n' :: a) fun w => rfl
      · refine .inl (hother (by simp [hlf]) fun w rest heq => ?_)
        cases x with
        | nil => rcases isEnd_iff.1 he with rfl | rfl | rfl <;> simp at heq
        | cons d x =>
          obtain ⟨rfl, rfl, -⟩ : c = '\r' ∧ d = '\n' ∧ _ := by simpa using heq
          exact hcrlf ⟨rfl, rfl⟩

/-- No document ends where a statement does. -/
theorem heredocEnd?_of_isEnd {label : String} (he : isEnd e) (w : List Char) :
    heredocEnd? label (e :: w) = none := by
  rcases isEnd_iff.1 he with rfl | rfl | rfl <;> rfl

/-- A plain document that is not closed takes the end along. -/
theorem settled_nowdoc {label : String} (he : isEnd e) (h : e ∉ label.toList) (x : List Char) :
    Settled e (scanNowdoc label) x := by
  induction x with
  | nil =>
    refine .of_behind (f := scanNowdoc label)
      (fun cs a rest h => length_le_of_append (scanNowdoc_append h)) (e :: ·) fun w => ?_
    rw [List.nil_append, scanNowdoc, heredocEnd?_of_isEnd he]
  | cons c x ih =>
    rcases heredocEnd?_end he h (c :: x) with hfails | ⟨a, r, hdone⟩
    · refine ih.of_map (c :: ·) fun w => ?_
      have hend : heredocEnd? label (c :: (x ++ e :: w)) = none := hfails w
      rw [List.cons_append, scanNowdoc, hend]
    · refine .of_done a r fun w => ?_
      have hend : heredocEnd? label (c :: (x ++ e :: w)) = some (a, r ++ e :: w) := hdone w
      rw [List.cons_append, scanNowdoc, hend]

/-- The end `e` of the text is no part of the label of a heredoc. -/
def Quote.Avoids (e : Char) : Quote → Prop
  | .heredoc label => e ∉ label.toList
  | _ => True

/-- The end of a template is found in front of the end of the text or not at all. -/
theorem templateEnd?_end {quote : Quote} (he : isEnd e) (h : quote.Avoids e) (x : List Char) :
    FailsIn e (templateEnd? quote) x ∨ DoneIn e (templateEnd? quote) x := by
  -- The two quotes close alike: by their own character, which is not the end.
  have hclose : ∀ (q : Quote) (c : Char), c ≠ e →
      (∀ cs, templateEnd? q cs = if cs.head? = some c then some ([c], cs.drop 1) else none) →
      FailsIn e (templateEnd? q) x ∨ DoneIn e (templateEnd? q) x := by
    intro q c hc hscan
    by_cases hx : x.head? = some c
    · obtain ⟨x, rfl⟩ := List.head?_eq_some_iff.1 hx
      exact .inr ⟨[c], x, fun w => by rw [hscan, List.cons_append, List.head?_cons, if_pos rfl]; rfl⟩
    · refine .inl fun w => ?_
      rw [hscan, if_neg]
      cases x with
      | nil => simpa using hc.symm
      | cons d x => exact hx
  cases quote with
  | heredoc label =>
    have hscan : templateEnd? (.heredoc label) = heredocEnd? label := rfl
    rw [hscan]
    exact heredocEnd?_end he h x
  | double =>
    refine hclose .double '"' (by rcases isEnd_iff.1 he with rfl | rfl | rfl <;> decide) fun cs => ?_
    cases cs with
    | nil => rfl
    | cons c cs =>
      by_cases hc : c = '"' <;> simp [templateEnd?, hc]
  | backtick =>
    refine hclose .backtick '`' (by rcases isEnd_iff.1 he with rfl | rfl | rfl <;> decide) fun cs => ?_
    cases cs with
    | nil => rfl
    | cons c cs =>
      by_cases hc : c = '`' <;> simp [templateEnd?, hc]

/-- No template ends where a statement does. -/
theorem templateEnd?_of_isEnd {quote : Quote} (he : isEnd e) (w : List Char) :
    templateEnd? quote (e :: w) = none := by
  cases quote with
  | heredoc label => exact heredocEnd?_of_isEnd he w
  | double | backtick => rcases isEnd_iff.1 he with rfl | rfl | rfl <;> rfl

/-- A part of a text with expressions, with whether an expression follows as a part of what is
taken. -/
def scanPart (quote : Quote) (cs : List Char) : Option ((List Char × Bool) × List Char) :=
  (scanTemplate quote cs).map fun (taken, hole, rest) => ((taken, hole), rest)

/-- A part of a template is cut off the front. -/
theorem length_scanPart {quote : Quote} {cs rest : List Char} {a : List Char × Bool}
    (h : scanPart quote cs = some (a, rest)) : rest.length ≤ cs.length := by
  obtain ⟨⟨taken, hole, rest'⟩, hscan, heq⟩ := Option.map_eq_some_iff.1 h
  cases heq
  exact length_le_of_append (scanTemplate_append hscan)

/-- A part ends where the template does. -/
theorem scanPart_of_end {quote : Quote} {c : Char} {cs a rest : List Char}
    (h : templateEnd? quote (c :: cs) = some (a, rest)) :
    scanPart quote (c :: cs) = some ((a, false), rest) := by
  rw [scanPart, scanTemplate.eq_def]
  dsimp only
  rw [h]
  rfl

/-- A brace and a dollar sign begin an expression, and the brace is taken. -/
theorem scanPart_of_brace {quote : Quote} {cs : List Char}
    (h : templateEnd? quote ('{' :: cs) = none) (hcs : cs.head? = some '$') :
    scanPart quote ('{' :: cs) = some ((['{'], true), cs) := by
  rw [scanPart, scanTemplate.eq_def]
  dsimp only
  rw [h, hcs]
  rfl

theorem scanPart_of_dollar {quote : Quote} {cs : List Char}
    (h : templateEnd? quote ('$' :: '{' :: cs) = none) :
    scanPart quote ('$' :: '{' :: cs) = some ((['$', '{'], true), cs) := by
  rw [scanPart, scanTemplate.eq_def]
  dsimp only
  rw [h]
  rfl

/-- An escaped character is taken as it is, save for a line break, which may be in front of a label.
-/
theorem scanPart_of_escape {quote : Quote} {d : Char} {cs : List Char}
    (h : templateEnd? quote ('\\' :: d :: cs) = none) :
    scanPart quote ('\\' :: d :: cs) =
      if d == '\n' || d == '\r' then
        (scanPart quote (d :: cs)).map fun (a, r) => (('\\' :: a.1, a.2), r)
      else (scanPart quote cs).map fun (a, r) => (('\\' :: d :: a.1, a.2), r) := by
  rw [scanPart, scanTemplate, h]
  by_cases hd : d == '\n' || d == '\r'
  · simp [hd, scanPart, Function.comp_def]
  · simp [hd, scanPart, Function.comp_def]

/-- Every other character is taken. -/
theorem scanPart_of_other {quote : Quote} {c : Char} {cs : List Char}
    (h : templateEnd? quote (c :: cs) = none) (hbrace : ¬(c = '\x7b' ∧ cs.head? = some '$'))
    (hdollar : ¬(c = '$' ∧ cs.head? = some '\x7b')) (hescape : ¬(c = '\\' ∧ cs ≠ [])) :
    scanPart quote (c :: cs) = (scanPart quote cs).map fun (a, r) => ((c :: a.1, a.2), r) := by
  rw [scanPart, scanTemplate, h]
  · simp [hbrace, scanPart, Function.comp_def]
  · rintro rest rfl rfl
    exact hdollar ⟨rfl, rfl⟩
  · rintro d rest rfl rfl
    exact hescape ⟨rfl, List.cons_ne_nil _ _⟩

/-- A part that does not end in front of the end of the text takes it along. -/
theorem settled_part {quote : Quote} (he : isEnd e) (h : quote.Avoids e) : ∀ x,
    Settled e (scanPart quote) x
  | [] => by
    refine .of_behind (f := scanPart quote) (fun cs a rest h => length_scanPart h)
      (fun a => (e :: a.1, a.2)) fun w => scanPart_of_other (templateEnd?_of_isEnd he w) ?_ ?_ ?_
    all_goals rcases isEnd_iff.1 he with rfl | rfl | rfl <;> simp
  | [c] => by
    rcases templateEnd?_end he h [c] with hfails | ⟨a, r, hdone⟩
    -- The backslash escapes the end itself, so the part goes on behind it.
    · by_cases hescape : c = '\\'
      · subst hescape
        refine .of_behind (f := scanPart quote) (fun cs a rest h => length_scanPart h)
          (fun a => ('\\' :: e :: a.1, a.2)) fun w => (scanPart_of_escape (hfails w)).trans (if_neg ?_)
        rcases isEnd_iff.1 he with rfl | rfl | rfl <;> decide
      refine (settled_part he h []).of_map (fun a => (c :: a.1, a.2)) fun w =>
        scanPart_of_other (hfails w) ?_ ?_ fun hc => hescape hc.1
      all_goals rcases isEnd_iff.1 he with rfl | rfl | rfl <;> simp
    · exact .of_done (a, false) r fun w => scanPart_of_end (hdone w)
  | c :: d :: x => by
    rcases templateEnd?_end he h (c :: d :: x) with hfails | ⟨a, r, hdone⟩
    -- Nothing closes here, so what is left are the two openings of an expression, an escape and any
    -- other character.
    · by_cases hbrace : c = '\x7b' ∧ d = '$'
      · obtain ⟨rfl, rfl⟩ := hbrace
        exact .of_done (['\x7b'], true) ('$' :: x) fun w => scanPart_of_brace (hfails w) rfl
      by_cases hdollar : c = '$' ∧ d = '\x7b'
      · obtain ⟨rfl, rfl⟩ := hdollar
        exact .of_done (['$', '\x7b'], true) x fun w => scanPart_of_dollar (hfails w)
      by_cases hescape : c = '\\'
      · subst hescape
        by_cases hd : d == '\n' || d == '\r'
        · refine (settled_part he h (d :: x)).of_map (fun a => ('\\' :: a.1, a.2)) fun w => ?_
          exact (scanPart_of_escape (hfails w)).trans (if_pos hd)
        · refine (settled_part he h x).of_map (fun a => ('\\' :: d :: a.1, a.2)) fun w => ?_
          exact (scanPart_of_escape (hfails w)).trans (if_neg hd)
      refine (settled_part he h (d :: x)).of_map (fun a => (c :: a.1, a.2)) fun w =>
        scanPart_of_other (hfails w) ?_ ?_ fun hc => hescape hc.1
      · simpa using hbrace
      · simpa using hdollar
    · exact .of_done (a, false) r fun w => scanPart_of_end (hdone w)

/-- The opening of a heredoc, with its label and marks as a part of what is taken. -/
def scanStart (cs : List Char) : Option ((List Char × String × Bool) × List Char) :=
  (scanHeredocStart cs).map fun (taken, label, bare, rest) => ((taken, label, bare), rest)

/-- The quote around a label is no end of a statement. -/
theorem labelMark_end (he : isEnd e) (x w : List Char) : labelMark (x ++ e :: w) = labelMark x := by
  cases x with
  | nil => rcases isEnd_iff.1 he with rfl | rfl | rfl <;> rfl
  | cons c x =>
    by_cases hq : c = '\''
    · subst hq
      rfl
    · by_cases hd : c = '"'
      · subst hd
        rfl
      · simp [labelMark, hq, hd]

theorem breaks_end (he : isEnd e) (x w : List Char) :
    ((x ++ e :: w).head? == some '\n' || (x ++ e :: w).take 2 == ['\r', '\n']) =
      (x.head? == some '\n' || x.take 2 == ['\r', '\n']) := by
  match x with
  | [] => rcases isEnd_iff.1 he with rfl | rfl | rfl <;> simp
  | [c] => rcases isEnd_iff.1 he with rfl | rfl | rfl <;> simp
  | c :: d :: x => simp

/-- The start of a document is found in front of the end of the text or not at all. -/
theorem scanStart_end (he : isEnd e) (x : List Char) : FailsIn e scanStart x ∨ DoneIn e scanStart x := by
  have hgap : isGap e = false := by rcases isEnd_iff.1 he with rfl | rfl | rfl <;> rfl
  have hname : isNamePart e = false := by rcases isEnd_iff.1 he with rfl | rfl | rfl <;> decide
  have hmark : e ∉ labelMark (x.dropWhile isGap) := by
    unfold labelMark
    split <;> (rcases isEnd_iff.1 he with rfl | rfl | rfl <;> decide)
  -- What the scan looks at stands in front of the end.
  obtain ⟨z, hz⟩ : ∃ z, x.dropWhile isGap = labelMark (x.dropWhile isGap) ++ z :=
    ⟨_, (labelMark_append _).symm⟩
  have hstart : ∀ w, (x ++ e :: w).dropWhile isGap = labelMark (x.dropWhile isGap) ++ (z ++ e :: w) := by
    intro w
    rw [dropWhile_end hgap, ← List.append_assoc, ← hz]
  have hmark_eq : ∀ w, labelMark ((x ++ e :: w).dropWhile isGap) = labelMark (x.dropWhile isGap) := by
    intro w
    rw [dropWhile_end hgap, labelMark_end he]
  generalize labelMark (x.dropWhile isGap) = mark at *
  have hscan : ∀ w, scanHeredocStart (x ++ e :: w) =
      let label := z.takeWhile isNamePart
      let rest := (z.dropWhile isNamePart ++ e :: w).drop mark.length
      if !label.isEmpty && mark.isPrefixOf (z.dropWhile isNamePart) &&
          (rest.head? == some '\n' || rest.take 2 == ['\r', '\n']) then
        some (x.takeWhile isGap ++ mark ++ label ++ mark, .ofList label, mark == ['\''], rest)
      else none := by
    intro w
    unfold scanHeredocStart
    simp only [hmark_eq, takeWhile_end hgap]
    rw [hstart, List.drop_left, takeWhile_end hname, dropWhile_end hname, isPrefixOf_end hmark]
  by_cases hprefix : mark <+: z.dropWhile isNamePart
  · obtain ⟨v, hv⟩ := hprefix
    have hrest : ∀ w, (z.dropWhile isNamePart ++ e :: w).drop mark.length = v ++ e :: w := by
      intro w
      rw [← hv, List.append_assoc, List.drop_left]
    simp only [hrest, breaks_end he] at hscan
    split_ifs at hscan with hcond
    · exact .inr ⟨_, v, fun w => by rw [scanStart, hscan]; rfl⟩
    · exact .inl fun w => by rw [scanStart, hscan]; rfl
  · refine .inl fun w => ?_
    have hfalse : mark.isPrefixOf (z.dropWhile isNamePart) = false := by
      rw [← Bool.not_eq_true, List.isPrefixOf_iff_prefix]
      exact hprefix
    rw [scanStart, hscan, hfalse]
    simp

/-! ## Numbers -/

/-- The scan stops in front of the end `e` of the text, whatever stands behind it. -/
def StopsIn (e : Char) (f : List Char → List Char × List Char) (x : List Char) : Prop :=
  ∃ a r, ∀ w, f (x ++ e :: w) = (a, r ++ e :: w)

/-- Digits stop in front of the end of the text, which is none. -/
theorem stops_digits {digit : Char → Bool} (he : isEnd e) (hdigit : digit e = false) (x : List Char) :
    StopsIn e (scanDigits digit) x := by
  induction x with
  | nil =>
    refine ⟨[], [], fun w => ?_⟩
    rcases isEnd_iff.1 he with rfl | rfl | rfl <;> simp [scanDigits, hdigit]
  | cons c x ih =>
    obtain ⟨a, r, hdone⟩ := ih
    by_cases h : digit c || (c == '_' && (x.head?.or (some e)).any digit)
    · refine ⟨c :: a, r, fun w => ?_⟩
      have hc : (digit c || (c == '_' && (x ++ e :: w).head?.any digit)) = true := by simpa using h
      rw [List.cons_append, scanDigits, if_pos hc, hdone]
    · refine ⟨[], c :: x, fun w => ?_⟩
      have hc : ¬(digit c || (c == '_' && (x ++ e :: w).head?.any digit)) = true := by simpa using h
      rw [List.cons_append, scanDigits, if_neg hc]

/-- No end of a statement is a digit. -/
theorem isDigit_of_isEnd (he : isEnd e) : e.isDigit = false := by
  rcases isEnd_iff.1 he with rfl | rfl | rfl <;> decide

/-- A fraction stops in front of it too. -/
theorem stops_fraction (he : isEnd e) (x : List Char) : StopsIn e scanFraction x := by
  by_cases h : x.head? = some '.'
  · obtain ⟨x, rfl⟩ := List.head?_eq_some_iff.1 h
    obtain ⟨a, r, hdone⟩ := stops_digits he (isDigit_of_isEnd he) x
    refine ⟨'.' :: a, r, fun w => ?_⟩
    rw [List.cons_append, scanFraction, hdone]
  · refine ⟨[], x, fun w => ?_⟩
    rw [scanFraction]
    rintro rest heq
    cases x with
    | nil => rcases isEnd_iff.1 he with rfl | rfl | rfl <;> simp at heq
    | cons c x => cases heq; exact h rfl

/-- The mark of an exponent stops in front of it, as it needs a digit behind it. -/
theorem exponentMark_end (he : isEnd e) (x : List Char) :
    ∃ mark r, x = mark ++ r ∧ ∀ w, exponentMark (x ++ e :: w) = mark := by
  -- The end is no exponent mark, and only one character behind it is looked at.
  have hlower : e.toLower ≠ 'e' := by rcases isEnd_iff.1 he with rfl | rfl | rfl <;> decide
  match x with
  | [] =>
    refine ⟨[], [], rfl, fun w => ?_⟩
    cases w with
    | nil => rfl
    | cons d w => simp [exponentMark, hlower]
  | [c] =>
    refine ⟨[], [c], rfl, fun w => ?_⟩
    rcases isEnd_iff.1 he with rfl | rfl | rfl <;> simp [exponentMark]
  | c :: d :: x =>
    -- What stands behind the sign is seen in front of the end, or is the end and no digit.
    have hhead : ∀ w, (x ++ e :: w).head? = x.head?.or (some e) := by simp
    by_cases hc : c.toLower != 'e'
    · exact ⟨[], c :: d :: x, rfl, fun w => by simp [exponentMark, hc]⟩
    by_cases hd : d.isDigit
    · exact ⟨[c], d :: x, rfl, fun w => by simp [exponentMark, hc, hd]⟩
    by_cases hsign : (d == '+' || d == '-') && (x.head?.or (some e)).any Char.isDigit
    · refine ⟨[c, d], x, rfl, fun w => ?_⟩
      rw [List.cons_append, List.cons_append, exponentMark, if_neg hc, if_neg hd, hhead, if_pos hsign]
    · refine ⟨[], c :: d :: x, rfl, fun w => ?_⟩
      rw [List.cons_append, List.cons_append, exponentMark, if_neg hc, if_neg hd, hhead, if_neg hsign]

theorem stops_exponent (he : isEnd e) (x : List Char) : StopsIn e scanExponent x := by
  obtain ⟨mark, r, rfl, hmark⟩ := exponentMark_end he x
  cases mark with
  | nil => exact ⟨[], r, fun w => by rw [scanExponent, hmark]; rfl⟩
  | cons c mark =>
    obtain ⟨a, r', hdone⟩ := stops_digits he (isDigit_of_isEnd he) r
    refine ⟨c :: mark ++ a, r', fun w => ?_⟩
    rw [scanExponent, hmark]
    dsimp only
    rw [List.append_assoc, List.drop_left, hdone]

/-- No end of a statement is a digit to any base. -/
theorem baseDigit?_of_isEnd (he : isEnd e) {letter : Char} {digit : Char → Bool}
    (h : baseDigit? letter = some digit) : digit e = false := by
  unfold baseDigit? at h
  split at h
  · cases h
    rcases isEnd_iff.1 he with rfl | rfl | rfl <;> decide
  · cases h
    rcases isEnd_iff.1 he with rfl | rfl | rfl <;> decide
  · cases h

/-- A number that starts with a zero stops in front of the end of the text. -/
theorem stops_zero (he : isEnd e) {x : List Char} (hx : x ≠ []) : StopsIn e scanZero x := by
  -- No digit of any base ends a statement.
  have hoctal : isOctalDigit e = false := by rcases isEnd_iff.1 he with rfl | rfl | rfl <;> decide
  obtain ⟨c, x, rfl⟩ := List.exists_cons_of_ne_nil hx
  by_cases hc : c = '0'
  · subst hc
    cases x with
    | nil =>
      obtain ⟨a, r, hdone⟩ := stops_digits he hoctal []
      refine ⟨'0' :: a, r, fun w => ?_⟩
      have hdigits : scanDigits isOctalDigit (e :: w) = (a, r ++ e :: w) := hdone w
      rcases isEnd_iff.1 he with rfl | rfl | rfl <;> simp [scanZero, baseDigit?, hdigits]
    | cons b x =>
      cases hb : baseDigit? b with
      | some digit =>
        obtain ⟨a, r, hdone⟩ := stops_digits he (baseDigit?_of_isEnd he hb) x
        have hhead_eq : ∀ w, (x ++ e :: w).head? = x.head?.or (some e) := by simp
        -- A base mark without a digit behind it is no part of the number.
        by_cases hhead : (x.head?.or (some e)).any digit
        · refine ⟨'0' :: b :: a, r, fun w => ?_⟩
          rw [List.cons_append, List.cons_append, scanZero, hb]
          dsimp only
          rw [hhead_eq, if_pos hhead, hdone]
        · refine ⟨['0'], b :: x, fun w => ?_⟩
          rw [List.cons_append, List.cons_append, scanZero, hb]
          dsimp only
          rw [hhead_eq, if_neg hhead]
      | none =>
        by_cases ho : b.toLower == 'o'
        · obtain ⟨a, r, hdone⟩ := stops_digits he hoctal x
          exact ⟨'0' :: b :: a, r, fun w => by simp [scanZero, hb, ho, hdone]⟩
        · obtain ⟨a, r, hdone⟩ := stops_digits he hoctal (b :: x)
          refine ⟨'0' :: a, r, fun w => ?_⟩
          have hdigits : scanDigits isOctalDigit (b :: (x ++ e :: w)) = (a, r ++ e :: w) := hdone w
          simp [scanZero, hb, ho, hdigits]
  · refine ⟨[c], x, fun w => ?_⟩
    rw [List.cons_append, scanZero]
    · rfl
    · rintro b rest heq
      exact hc (List.cons.inj heq).1

theorem stops_number (he : isEnd e) {x : List Char} (hx : x ≠ []) : StopsIn e scanNumber x := by
  obtain ⟨whole, r, hwhole⟩ := stops_digits he (isDigit_of_isEnd he) x
  obtain ⟨fraction, r', hfraction⟩ := stops_fraction he r
  obtain ⟨exponent, r'', hexponent⟩ := stops_exponent he r'
  by_cases hzero : fraction.isEmpty && exponent.isEmpty && whole.head? == some '0'
  · obtain ⟨a, r, hdone⟩ := stops_zero he hx
    refine ⟨a, r, fun w => ?_⟩
    rw [scanNumber, hwhole]
    dsimp only
    rw [hfraction, hexponent, if_pos hzero, hdone]
  · refine ⟨whole ++ fraction ++ exponent, r'', fun w => ?_⟩
    rw [scanNumber, hwhole]
    dsimp only
    rw [hfraction, hexponent, if_neg hzero]

/-! ## Symbols -/

/-- An end of a statement stands in a symbol only as its first or its last character. -/
theorem symbol_end {s : String} (hs : s ∈ symbols) (he : isEnd e) :
    e ∉ (s.toList.drop 1).dropLast := by
  have hall : symbols.all fun s => !((s.toList.drop 1).dropLast.any isEnd) := by decide +kernel
  intro hmem
  have hnone := List.all_eq_true.1 hall s hs
  rw [Bool.not_eq_true', List.any_eq_false] at hnone
  exact hnone e hmem he

/-- A symbol that is found in front of more text is found without it. -/
theorem isPrefixOf_symbol {s : String} (hs : s ∈ symbols) (he : isEnd e) (hx : x ≠ []) (w : List Char) :
    s.toList.isPrefixOf (x ++ e :: w) = s.toList.isPrefixOf (x ++ [e]) := by
  rw [Bool.eq_iff_iff, List.isPrefixOf_iff_prefix, List.isPrefixOf_iff_prefix]
  constructor
  · rintro ⟨t, ht⟩
    rcases List.append_eq_append_iff.1 ht with ⟨r, hr, -⟩ | ⟨r, hr, hrest⟩
    · exact hr ▸ (List.prefix_append _ _).trans (List.prefix_append _ _)
    · cases r with
      | nil => rw [hr, List.append_nil]; exact List.prefix_append _ _
      | cons c r =>
        obtain ⟨rfl, -⟩ := List.cons.inj hrest
        cases r with
        | nil => exact hr ▸ List.prefix_refl _
        | cons d r =>
          -- The symbol would go on behind the end.
          refine absurd ?_ (symbol_end hs he)
          obtain ⟨a, x, rfl⟩ := List.exists_cons_of_ne_nil hx
          rw [hr]
          simp
  · rintro ⟨t, ht⟩
    exact ⟨t ++ w, by rw [← List.append_assoc, ht, List.append_assoc]; rfl⟩

/-- The longest symbol may take the end of the text along, but goes no further. -/
theorem settled_symbol (he : isEnd e) (hx : x ≠ []) : Settled e scanSymbol? x := by
  have hscan : ∀ w, scanSymbol? (x ++ e :: w) =
      (symbols.find? fun s => s.toList.isPrefixOf (x ++ [e])).map
        fun s => (s, (x ++ e :: w).drop s.length) := by
    intro w
    rw [scanSymbol?, List.find?_congr fun s hs => isPrefixOf_symbol hs he hx w]
  cases hfind : symbols.find? fun s => s.toList.isPrefixOf (x ++ [e]) with
  | none =>
    refine .inr fun w a rest h => ?_
    rw [hscan, hfind] at h
    cases h
  | some s =>
    have hfound := List.find?_some (p := fun s : String => s.toList.isPrefixOf (x ++ [e])) hfind
    rcases List.prefix_concat_iff.1 (List.isPrefixOf_iff_prefix.1 hfound) with hs | ⟨r, rfl⟩
    · refine .inr fun w a rest h => ?_
      rw [hscan, hfind] at h
      cases h
      rw [← String.length_toList, hs]
      simp
    · refine .of_done s r fun w => ?_
      rw [hscan, hfind, List.append_assoc, Option.map_some, ← String.length_toList, List.drop_left]

end ApiCatalog.Php
