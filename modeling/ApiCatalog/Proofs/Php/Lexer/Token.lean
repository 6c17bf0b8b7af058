import ApiCatalog.Proofs.Php.Lexer.Scan
import ApiCatalog.Proofs.Php.Parser.Seam

/-!
# Tokens of a text with the end of a statement in it

What scans take in front of the end of a statement does not depend on what stands behind it, and so
neither do the blanks and comments in front of a token (`leadOf_end`) nor the token (`token_scan`).
The end must not be part of the label that closes an open heredoc: labels are names, and every
token leaves it at that (`scanToken_nests`). The end itself is a token of its own, if no colon
follows it (`symbolLexeme_of_isEnd`).
-/

namespace ApiCatalog.Php

variable {e : Char} {x : List Char}

/-! ## Between tokens -/

/-- Where neither a comment with slashes nor the end of code begins, there are blanks or a hash
sign. -/
theorem scanTrivia_other {c : Char} {cs : List Char} (hblock : ¬(c = '/' ∧ cs.head? = some '*'))
    (hline : ¬(c = '/' ∧ cs.head? = some '/')) (hmarkup : ¬(c = '?' ∧ cs.head? = some '>')) :
    scanTrivia (c :: cs) =
      if isSpace c then some (.blank (.ofList (c :: cs.takeWhile isSpace)), cs.dropWhile isSpace)
      else if c == '#' && cs.head? != some '[' then
        some (.comment (.ofList ('#' :: (scanLineComment cs).1)), (scanLineComment cs).2)
      else none := by
  rw [scanTrivia]
  · rintro rest rfl rfl
    exact hblock ⟨rfl, rfl⟩
  · rintro rest rfl rfl
    exact hline ⟨rfl, rfl⟩
  · rintro rest rfl rfl
    exact hmarkup ⟨rfl, rfl⟩

/-- No trivia begin with the end of a statement. -/
theorem scanTrivia_of_isEnd (he : isEnd e) (w : List Char) : scanTrivia (e :: w) = none := by
  rw [scanTrivia_other]
  all_goals rcases isEnd_iff.1 he with rfl | rfl | rfl <;> simp [isSpace]

/-- What stands at the start of the text, and is no token, does not depend on what stands behind
the end `e`; and whether something does only if a comment opens. -/
theorem settled_trivia (he : isEnd e) (x : List Char) (hmarkup : ¬['?', '>'] <+: x) :
    Settled e scanTrivia x ∧
      (¬['/', '*'] <+: x → FailsIn e scanTrivia x ∨ ∀ w, (scanTrivia (x ++ e :: w)).isSome) := by
  cases x with
  | nil =>
    have hfails : FailsIn e scanTrivia [] := scanTrivia_of_isEnd he
    refine ⟨.inr fun w a rest h => ?_, fun _ => .inl hfails⟩
    rw [hfails w] at h
    cases h
  | cons c x =>
    -- The two comments that begin with a slash take everything up to their own end.
    by_cases hblock : c = '/' ∧ x.head? = some '*'
    · obtain ⟨rfl, hx⟩ := hblock
      obtain ⟨x, rfl⟩ := List.head?_eq_some_iff.1 hx
      refine ⟨(settled_blockComment he x).of_map (fun a => .comment (.ofList ('/' :: '*' :: a)))
        fun w => rfl, fun h => absurd ?_ h⟩
      exact ⟨x, rfl⟩
    by_cases hline : c = '/' ∧ x.head? = some '/'
    · obtain ⟨rfl, hx⟩ := hline
      obtain ⟨x, rfl⟩ := List.head?_eq_some_iff.1 hx
      exact ⟨(settled_lineComment he x).of_map (fun a => .comment (.ofList ('/' :: '/' :: a)))
        fun w => rfl, fun _ => .inr fun w => rfl⟩
    -- No other opening is completed by the end itself.
    have hnext : ∀ {a b : Char} (w : List Char), e ≠ b → ¬(c = a ∧ x.head? = some b) →
        ¬(c = a ∧ (x ++ e :: w).head? = some b) := by
      intro a b w hb h
      cases x with
      | nil => simp [hb]
      | cons d x => exact h
    have hscan := fun w => scanTrivia_other (c := c)
      (hnext w (by rcases isEnd_iff.1 he with rfl | rfl | rfl <;> decide) hblock)
      (hnext w (by rcases isEnd_iff.1 he with rfl | rfl | rfl <;> decide) hline)
      (hnext w (by rcases isEnd_iff.1 he with rfl | rfl | rfl <;> decide) fun h => hmarkup (by
        obtain ⟨rfl, hx⟩ := h
        obtain ⟨x, rfl⟩ := List.head?_eq_some_iff.1 hx
        exact ⟨x, rfl⟩))
    have hhead : ∀ w, (x ++ e :: w).head? = x.head?.or (some e) := by simp
    -- White space stops at the end, a hash comment reaches the end of its line, and all else is no
    -- trivia.
    by_cases hspace : isSpace c
    · have hend : isSpace e = false := by rcases isEnd_iff.1 he with rfl | rfl | rfl <;> decide
      simp only [if_pos hspace, takeWhile_end hend, dropWhile_end hend] at hscan
      exact ⟨.of_done _ _ hscan, fun _ => .inr fun w => Option.isSome_iff_exists.2 ⟨_, hscan w⟩⟩
    by_cases hhash : c == '#' && x.head?.or (some e) != some '['
    · simp only [if_neg hspace, hhead, if_pos hhash] at hscan
      refine ⟨(settled_lineComment he x).of_map (fun a => .comment (.ofList ('#' :: a))) hscan,
        fun _ => .inr fun w => Option.isSome_iff_exists.2 ⟨_, hscan w⟩⟩
    · simp only [if_neg hspace, hhead, if_neg hhash] at hscan
      refine ⟨.inr fun w a rest h => ?_, fun _ => .inl hscan⟩
      rw [List.cons_append, hscan] at h
      cases h

/-- What stands in front of the first token does not depend on what stands behind the end `e`, if
the first token is in front of that, and is no sign of a comment that does not end. -/
theorem leadOf_end (he : isEnd e) : ∀ (x r w : List Char) (lead : List Trivia),
    leadOf (x ++ e :: w) = (lead, r ++ e :: w) → (∀ text, .markup text ∉ lead) →
    ¬['/', '*'] <+: r → ∀ w', leadOf (x ++ e :: w') = (lead, r ++ e :: w') := by
  intro x
  -- On the length of the text in front of the end; the trivia are taken from it one by one.
  induction hn : x.length using Nat.strong_induction_on generalizing x with
  | _ n ih =>
    intro r w lead hlead hmarkup hblock w'
    -- A closing tag would put markup in the lead.
    have hnomarkup : ¬['?', '>'] <+: x := by
      rintro ⟨x, rfl⟩
      have hscan : scanTrivia ('?' :: '>' :: (x ++ e :: w)) =
        some (.markup (.ofList ('?' :: '>' :: (scanMarkup (x ++ e :: w)).1)),
          (scanMarkup (x ++ e :: w)).2) := rfl
      rw [List.append_assoc, List.cons_append, List.cons_append, List.nil_append,
        leadOf_of_some hscan] at hlead
      obtain ⟨rfl, -⟩ := Prod.mk.inj hlead
      exact hmarkup _ (List.mem_cons_self ..)
    obtain ⟨hsettled, hnone⟩ := settled_trivia he x hnomarkup
    cases hscan : scanTrivia (x ++ e :: w) with
    -- With no trivia here there is none with other text behind the end either.
    | none =>
      rw [leadOf_of_none hscan] at hlead
      obtain ⟨rfl, hr⟩ := Prod.mk.inj hlead
      obtain rfl := List.append_cancel_right hr
      refine leadOf_of_none ((hnone hblock).resolve_right (fun hsome => ?_) w')
      have := hsome w
      rw [hscan] at this
      cases this
    | some found =>
      obtain ⟨trivia, rest⟩ := found
      rw [leadOf_of_some hscan] at hlead
      obtain ⟨rfl, hr⟩ := Prod.mk.inj hlead
      -- The lead ends in front of `e`, so this piece of it cannot have gone past.
      have hlength : w.length < rest.length := by
        have hle := length_leadOf_le rest
        rw [hr, List.length_append, List.length_cons] at hle
        omega
      obtain ⟨a, r', hdone⟩ := hsettled.resolve_right fun hpast =>
        Nat.not_le_of_lt hlength (hpast w trivia rest hscan)
      obtain ⟨rfl, rfl⟩ := Prod.mk.inj (Option.some.inj ((hdone w).symm.trans hscan))
      have hlt : r'.length < x.length := by
        have := (scanTrivia_cuts hscan).length_lt
        rw [List.length_append, List.length_append] at this
        omega
      have hmore := ih r'.length (hn ▸ hlt) r' rfl r w _ (Prod.ext rfl hr)
        (fun text h => hmarkup text (List.mem_cons_of_mem _ h)) hblock w'
      rw [leadOf_of_some (hdone w'), hmore]

/-! ## Tokens -/

/-- The token is whole in front of the end `e` of the text, whatever stands behind that. -/
def TokenIn (e : Char) (g : List Char → Lexeme) (x : List Char) : Prop :=
  ∃ kind text opened r, ∀ w, g (x ++ e :: w) = ⟨kind, text, opened, r ++ e :: w⟩

/-- The token takes the end `e` of the text along, if it is not broken. -/
def TokenPast (e : Char) (g : List Char → Lexeme) (x : List Char) : Prop :=
  ∀ w, (g (x ++ e :: w)).kind = .broken ∨ (g (x ++ e :: w)).rest.length ≤ w.length

/-- What the token is does not depend on what stands behind the end `e` of the text, if the end is
no part of it. -/
def TokenSettled (e : Char) (g : List Char → Lexeme) (x : List Char) : Prop :=
  TokenIn e g x ∨ TokenPast e g x

/-- A token that is scanned like a settled one is settled. -/
theorem TokenSettled.congr {g g' : List Char → Lexeme} {y : List Char} (h : TokenSettled e g y)
    (heq : ∀ w, g' (x ++ e :: w) = g (y ++ e :: w)) : TokenSettled e g' x := by
  simp only [TokenSettled, TokenIn, TokenPast, heq]
  exact h

/-- A token that a scan makes. -/
theorem TokenSettled.of_scan {α : Type} {f : List Char → Option (α × List Char)} {y : List Char}
    {g : List Char → Lexeme} (h : Settled e f y) (kind : α → TokenKind) (text : α → List Char)
    (opened : α → List OpenTemplate)
    (hsome : ∀ w a r, f (y ++ e :: w) = some (a, r) → g (x ++ e :: w) = ⟨kind a, text a, opened a, r⟩)
    (hnone : ∀ w, f (y ++ e :: w) = none → (g (x ++ e :: w)).kind = .broken) :
    TokenSettled e g x := by
  rcases h with ⟨a, r, hdone⟩ | hpast
  · exact .inl ⟨kind a, text a, opened a, r, fun w => hsome w _ _ (hdone w)⟩
  · refine .inr fun w => ?_
    cases hscan : f (y ++ e :: w) with
    | none => exact .inl (hnone w hscan)
    | some found =>
      refine .inr ?_
      rw [hsome w found.1 found.2 hscan]
      exact hpast w found.1 found.2 hscan

/-- A text between single quotes is settled. -/
theorem token_quoted (he : isEnd e) (start : List Char) (opened : List OpenTemplate) (x : List Char) :
    TokenSettled e (quotedLexeme start opened) x := by
  refine TokenSettled.of_scan (settled_quoted he x) (fun _ => .quoted) (fun a => start ++ a)
    (fun _ => opened) ?_ ?_
  · intro w a r h
    rw [quotedLexeme, h]
  · intro w h
    rw [quotedLexeme, h]

/-- So is a template, if the end of the text is no part of its label. -/
theorem token_template (quote : Quote) (he : isEnd e) (h : quote.Avoids e) (whole partly : TokenKind)
    (start : List Char) (opened : List OpenTemplate) (x : List Char) :
    TokenSettled e (templateLexeme quote whole partly start opened) x := by
  refine TokenSettled.of_scan (settled_part he h x) (fun a => if a.2 then partly else whole)
    (fun a => start ++ a.1) (fun a => if a.2 then ⟨quote, 0⟩ :: opened else opened) ?_ ?_
  · intro w a r hscan
    obtain ⟨⟨taken, hole, rest⟩, hscan, heq⟩ := Option.map_eq_some_iff.1 hscan
    cases heq
    rw [templateLexeme, hscan]
    cases hole <;> rfl
  · intro w hscan
    rw [scanPart, Option.map_eq_none_iff] at hscan
    rw [templateLexeme, hscan]

/-- A template is cut off the front. -/
theorem length_templateLexeme (quote : Quote) (whole partly : TokenKind) (start : List Char)
    (opened : List OpenTemplate) (cs : List Char) :
    (templateLexeme quote whole partly start opened cs).rest.length ≤ cs.length := by
  unfold templateLexeme
  split
  · rename_i hscan
    exact length_le_of_append (scanTemplate_append hscan)
  · rename_i hscan
    exact length_le_of_append (scanTemplate_append hscan)
  · exact Nat.le_refl _

theorem length_symbolToken (opened : List OpenTemplate) (s : String) (rest : List Char) :
    (symbolToken opened s rest).rest.length ≤ rest.length := by
  rcases symbolToken_cases opened s with ⟨opened', -, heq⟩ | ⟨quote, more, -, -, heq⟩
  · rw [heq]
  · rw [heq]
    exact length_templateLexeme ..

/-- A symbol is settled, a brace that goes on with a template included. -/
theorem token_symbol (he : isEnd e) {opened : List OpenTemplate}
    (h : ∀ t ∈ opened, t.quote.Avoids e) (hx : x ≠ []) :
    TokenSettled e (symbolLexeme opened) x := by
  rcases settled_symbol he hx with ⟨s, r, hdone⟩ | hpast
  · have hscan : ∀ w, symbolLexeme opened (x ++ e :: w) = symbolToken opened s (r ++ e :: w) := by
      intro w
      rw [symbolLexeme, hdone]
    rcases symbolToken_cases opened s with ⟨opened', -, heq⟩ | ⟨quote, more, -, rfl, heq⟩
    · exact .inl ⟨_, _, _, r, fun w => (hscan w).trans (heq _)⟩
    · -- The brace returns to the text around it.
      have hquote : quote.Avoids e := h ⟨quote, 0⟩ (List.mem_cons_self ..)
      exact .congr (token_template quote he hquote _ _ _ _ r) fun w => (hscan w).trans (heq _)
  · refine .inr fun w => ?_
    rw [symbolLexeme]
    cases hscan : scanSymbol? (x ++ e :: w) with
    | none => exact .inl rfl
    | some found => exact .inr (Nat.le_trans (length_symbolToken ..) (hpast w found.1 found.2 hscan))

theorem token_heredoc {label : String} (he : isEnd e) (h : e ∉ label.toList) (start : List Char)
    (bare : Bool) (opened : List OpenTemplate) (x : List Char) :
    TokenSettled e (heredocToken start label bare opened) x := by
  cases bare with
  | false =>
    have hquote : (Quote.heredoc label).Avoids e := h
    exact token_template _ he hquote _ _ start opened x
  | true =>
    refine TokenSettled.of_scan (settled_nowdoc he h x) (fun _ => .nowdoc) (fun a => start ++ a)
      (fun _ => opened) ?_ ?_
    · intro w a r hscan
      rw [heredocToken, if_pos rfl, hscan]
    · intro w hscan
      rw [heredocToken, if_pos rfl, hscan]

/-- The label of a heredoc is a name. -/
theorem scanHeredocStart_label {cs taken rest : List Char} {label : String} {bare : Bool}
    (h : scanHeredocStart cs = some (taken, label, bare, rest)) : ∀ c ∈ label.toList, isNamePart c := by
  unfold scanHeredocStart at h
  simp only [Option.ite_none_right_eq_some, Option.some.injEq, Prod.mk.injEq] at h
  obtain ⟨-, -, rfl, -, -⟩ := h
  intro c hc
  rw [String.toList_ofList] at hc
  exact List.mem_takeWhile_imp hc

/-- No end of a statement is part of a name. -/
theorem isNamePart_of_isEnd (he : isEnd e) : isNamePart e = false := by
  rcases isEnd_iff.1 he with rfl | rfl | rfl <;> decide

/-- The end of a statement is a symbol. -/
theorem scanToken_of_isEnd (he : isEnd e) (opened : List OpenTemplate) (w : List Char) :
    scanToken opened (e :: w) = symbolLexeme opened (e :: w) := by
  have hname : isNameStart e = false := by rcases isEnd_iff.1 he with rfl | rfl | rfl <;> decide
  have hdigit := isDigit_of_isEnd he
  cases w with
  | nil => 
    rcases isEnd_iff.1 he with rfl | rfl | rfl <;> simp [scanToken, hname, hdigit]
  | cons d w => 
    rcases isEnd_iff.1 he with rfl | rfl | rfl <;> simp [scanToken, hname, hdigit]

/-- The token that a text starts with, if no text opens there. -/
theorem scanToken_cons_cons (opened : List OpenTemplate) {c d : Char} {cs : List Char}
    (hquoted : c ≠ '\'') (hdouble : c ≠ '"') (hbacktick : c ≠ '\x60')
    (hheredoc : ¬['<', '<', '<'] <+: c :: d :: cs) :
    scanToken opened (c :: d :: cs) =
      if (c == 'b' || c == 'B') && d == '\'' then quotedLexeme [c, d] opened cs
      else if (c == 'b' || c == 'B') && d == '"' then
        templateLexeme .double (.template .double) (.templateHead .double) [c, d] opened cs
      else if c == '$' && isNameStart d then
        ⟨.variable, c :: d :: cs.takeWhile isNamePart, opened, cs.dropWhile isNamePart⟩
      else if isNameStart c then
        ⟨.word, c :: (d :: cs).takeWhile isNamePart, opened, (d :: cs).dropWhile isNamePart⟩
      else if c.isDigit || (c == '.' && d.isDigit) then
        ⟨.number, (scanNumber (c :: d :: cs)).1, opened, (scanNumber (c :: d :: cs)).2⟩
      else symbolLexeme opened (c :: d :: cs) := by
  rw [scanToken]
  · exact hquoted
  · exact hdouble
  · exact hbacktick
  · rintro rest rfl rfl rfl
    exact hheredoc ⟨rest, rfl⟩

/-- The start of a heredoc is read alike whatever stands behind the end `e`. Where it cannot be read,
its signs are symbols. -/
theorem token_heredocStart (he : isEnd e) {opened : List OpenTemplate}
    (h : ∀ t ∈ opened, t.quote.Avoids e) (x : List Char) :
    TokenSettled e (scanToken opened) ('<' :: '<' :: '<' :: x) := by
  have hscan : ∀ w, scanToken opened ('<' :: '<' :: '<' :: (x ++ e :: w)) =
      (heredocLexeme? opened (x ++ e :: w)).getD
        (symbolLexeme opened ('<' :: '<' :: '<' :: (x ++ e :: w))) := fun _ => rfl
  -- Without a label the three marks are a symbol; with one the text up to it is a heredoc.
  rcases scanStart_end he x with hfails | ⟨⟨start, label, bare⟩, r, hdone⟩
  · refine .congr (token_symbol he h (List.cons_ne_nil '<' ('<' :: '<' :: x))) fun w => ?_
    have hnone : scanHeredocStart (x ++ e :: w) = none := Option.map_eq_none_iff.1 (hfails w)
    exact (hscan w).trans (by rw [heredocLexeme?, hnone]; rfl)
  · have hstart : ∀ w, scanHeredocStart (x ++ e :: w) = some (start, label, bare, r ++ e :: w) := by
      intro w
      obtain ⟨⟨_, _, _, _⟩, hfound, heq⟩ := Option.map_eq_some_iff.1 (hdone w)
      cases heq
      exact hfound
    -- The label is a name and the end no part of one.
    have hlabel : e ∉ label.toList := by
      intro hmem
      have hname := scanHeredocStart_label (hstart []) e hmem
      rw [isNamePart_of_isEnd he] at hname
      cases hname
    refine .congr (token_heredoc he hlabel ('<' :: '<' :: '<' :: start) bare opened r) fun w => ?_
    exact (hscan w).trans (by rw [heredocLexeme?, hstart]; rfl)

/-- A number ends in front of the end `e`. -/
theorem token_number (he : isEnd e) {opened : List OpenTemplate} (hx : x ≠ [])
    (hscan : ∀ w, scanToken opened (x ++ e :: w) =
      ⟨.number, (scanNumber (x ++ e :: w)).1, opened, (scanNumber (x ++ e :: w)).2⟩) :
    TokenSettled e (scanToken opened) x := by
  obtain ⟨taken, r, hnumber⟩ := stops_number he hx
  refine .inl ⟨.number, taken, opened, r, fun w => (hscan w).trans ?_⟩
  rw [hnumber]

/-- The end `e` is no second character of a token that one character starts. -/
theorem token_singleton (he : isEnd e) {opened : List OpenTemplate}
    (h : ∀ t ∈ opened, t.quote.Avoids e) {c : Char} (hquoted : c ≠ '\'') (hdouble : c ≠ '"')
    (hbacktick : c ≠ '\x60') : TokenSettled e (scanToken opened) [c] := by
  have hstart : ∀ w, ¬['<', '<', '<'] <+: c :: e :: w := by
    rintro w ⟨rest, heq⟩
    rcases isEnd_iff.1 he with rfl | rfl | rfl <;> simp at heq
  have hscan := fun w => scanToken_cons_cons opened hquoted hdouble hbacktick (hstart w)
  have hnone : isNameStart e = false ∧ e ≠ '\'' ∧ e ≠ '"' := by
    rcases isEnd_iff.1 he with rfl | rfl | rfl <;> decide
  have hquote : ¬((c == 'b' || c == 'B') && e == '\'') = true := by simp [hnone]
  have hquote' : ¬((c == 'b' || c == 'B') && e == '"') = true := by simp [hnone]
  have hvariable : ¬(c == '$' && isNameStart e) = true := by simp [hnone]
  simp only [if_neg hquote, if_neg hquote', if_neg hvariable] at hscan
  by_cases hword : isNameStart c
  · refine .inl ⟨.word, [c], opened, [], fun w => (hscan w).trans ((if_pos hword).trans ?_)⟩
    simp [isNamePart_of_isEnd he]
  simp only [if_neg hword] at hscan
  by_cases hdigit : c.isDigit || (c == '.' && e.isDigit)
  · exact token_number he (List.cons_ne_nil c []) fun w => (hscan w).trans (if_pos hdigit)
  · exact (token_symbol he h (List.cons_ne_nil c [])).congr fun w => (hscan w).trans (if_neg hdigit)

/-- Two characters tell the kind of a token, whatever stands behind the end `e`. -/
theorem token_cons_cons (he : isEnd e) {opened : List OpenTemplate}
    (h : ∀ t ∈ opened, t.quote.Avoids e) {c d : Char} (hquoted : c ≠ '\'') (hdouble : c ≠ '"')
    (hbacktick : c ≠ '\x60') (hheredoc : ¬['<', '<', '<'] <+: c :: d :: x) :
    TokenSettled e (scanToken opened) (c :: d :: x) := by
  have hname := isNamePart_of_isEnd he
  -- The end does not complete three marks.
  have hstart : ∀ w, ¬['<', '<', '<'] <+: c :: d :: (x ++ e :: w) := by
    rintro w ⟨rest, heq⟩
    cases x with
    | nil => rcases isEnd_iff.1 he with rfl | rfl | rfl <;> simp at heq
    | cons b x =>
      cases heq
      exact hheredoc ⟨x, rfl⟩
  have hscan := fun w => scanToken_cons_cons opened hquoted hdouble hbacktick (hstart w)
  -- The tests of the scanner in its order; each looks at the two characters that are there.
  by_cases hquote : (c == 'b' || c == 'B') && d == '\''
  · exact .congr (token_quoted he [c, d] opened x) fun w => (hscan w).trans (if_pos hquote)
  simp only [if_neg hquote] at hscan
  by_cases hquote' : (c == 'b' || c == 'B') && d == '"'
  · exact .congr (token_template .double he trivial _ _ [c, d] opened x) fun w =>
      (hscan w).trans (if_pos hquote')
  simp only [if_neg hquote'] at hscan
  by_cases hvariable : c == '$' && isNameStart d
  · refine .inl ⟨.variable, c :: d :: x.takeWhile isNamePart, opened, x.dropWhile isNamePart,
      fun w => (hscan w).trans ((if_pos hvariable).trans ?_)⟩
    rw [takeWhile_end hname, dropWhile_end hname]
  simp only [if_neg hvariable] at hscan
  by_cases hword : isNameStart c
  · refine .inl ⟨.word, c :: (d :: x).takeWhile isNamePart, opened, (d :: x).dropWhile isNamePart,
      fun w => (hscan w).trans ((if_pos hword).trans ?_)⟩
    rw [← List.cons_append, takeWhile_end hname, dropWhile_end hname]
  simp only [if_neg hword] at hscan
  by_cases hdigit : c.isDigit || (c == '.' && d.isDigit)
  · exact token_number he (List.cons_ne_nil c (d :: x)) fun w => (hscan w).trans (if_pos hdigit)
  · exact (token_symbol he h (List.cons_ne_nil c (d :: x))).congr fun w =>
      (hscan w).trans (if_neg hdigit)

/-- The token at the start of the text does not depend on what stands behind the end `e`, if it
is whole in front of that. -/
theorem token_scan (he : isEnd e) {opened : List OpenTemplate} (h : ∀ t ∈ opened, t.quote.Avoids e)
    (x : List Char) : TokenSettled e (scanToken opened) x := by
  cases x with
  | nil =>
    refine .inr fun w => .inr ?_
    -- Nothing stands in front of the end: the symbol takes it along.
    rw [List.nil_append, scanToken_of_isEnd he]
    exact Nat.le_of_lt_succ (symbolLexeme_cuts opened (List.cons_ne_nil e w)).length_lt
  | cons c x =>
  -- The four openings that need one character, or three marks; then there are two to look at.
  by_cases hquoted : c = '\''
  · subst hquoted
    exact .congr (token_quoted he ['\''] opened x) fun w => rfl
  by_cases hdouble : c = '"'
  · subst hdouble
    exact .congr (token_template .double he trivial _ _ ['"'] opened x) fun w => rfl
  by_cases hbacktick : c = '\x60'
  · subst hbacktick
    exact .congr (token_template .backtick he trivial _ _ ['\x60'] opened x) fun w => rfl
  by_cases hheredoc : ['<', '<', '<'] <+: c :: x
  · obtain ⟨x, hx⟩ := hheredoc
    rw [← hx]
    exact token_heredocStart he h x
  cases x with
  | nil => exact token_singleton he h hquoted hdouble hbacktick
  | cons d x => exact token_cons_cons he h hquoted hdouble hbacktick hheredoc

/-! ## Open texts -/

/-- The label of a heredoc is a name. -/
def Quote.Named : Quote → Prop
  | .heredoc label => ∀ c ∈ label.toList, isNamePart c
  | _ => True

/-- A label that is a name has no end of a statement in it. -/
theorem Quote.Named.avoids {quote : Quote} (h : quote.Named) (he : isEnd e) : quote.Avoids e := by
  cases quote with
  | heredoc label =>
    intro hmem
    have hname := h e hmem
    rw [isNamePart_of_isEnd he] at hname
    cases hname
  | double | backtick => trivial

/-- How many texts with expressions open with a token of this kind. -/
def TokenKind.opens : TokenKind → Nat
  | .templateHead _ => 1
  | _ => 0

/-- How many texts with expressions close with a token of this kind. -/
def TokenKind.closes : TokenKind → Nat
  | .templateTail => 1
  | _ => 0

/-- Behind the token the texts are open that were, but for one that it opens or closes. -/
structure Lexeme.Nests (opened : List OpenTemplate) (lexeme : Lexeme) : Prop where
  named : (∀ t ∈ opened, t.quote.Named) → ∀ t ∈ lexeme.opened, t.quote.Named
  depth : lexeme.kind ≠ .broken →
    lexeme.opened.length + lexeme.kind.closes = opened.length + lexeme.kind.opens

/-- A text between single quotes opens nothing. -/
theorem quotedLexeme_nests (start : List Char) (opened : List OpenTemplate) (cs : List Char) :
    (quotedLexeme start opened cs).Nests opened := by
  unfold quotedLexeme
  split
  · exact ⟨id, fun _ => rfl⟩
  · exact ⟨id, fun h => absurd rfl h⟩

/-- A template opens or closes as many texts as its token says. -/
theorem templateLexeme_nests {quote : Quote} {whole partly : TokenKind}
    {opened more : List OpenTemplate} (hquote : (∀ t ∈ opened, t.quote.Named) → quote.Named)
    (hnamed : (∀ t ∈ opened, t.quote.Named) → ∀ t ∈ more, t.quote.Named)
    (hwhole : more.length + whole.closes = opened.length + whole.opens)
    (hpartly : more.length + 1 + partly.closes = opened.length + partly.opens)
    (start cs : List Char) : (templateLexeme quote whole partly start more cs).Nests opened := by
  unfold templateLexeme
  split
  · refine ⟨fun h t ht => ?_, fun _ => hpartly⟩
    rcases List.mem_cons.1 ht with rfl | ht
    · exact hquote h
    · exact hnamed h t ht
  · exact ⟨hnamed, fun _ => hwhole⟩
  · exact ⟨hnamed, fun h => absurd rfl h⟩

/-- One that begins here opens one text at most. -/
theorem templateLexeme_nests_same (quote : Quote) (hquote : quote.Named) (start : List Char)
    (opened : List OpenTemplate) (cs : List Char) :
    (templateLexeme quote (.template quote) (.templateHead quote) start opened cs).Nests opened :=
  templateLexeme_nests (fun _ => hquote) id rfl rfl start cs

theorem heredocLexeme?_nests {opened : List OpenTemplate} {cs : List Char} {lexeme : Lexeme}
    (h : heredocLexeme? opened cs = some lexeme) : lexeme.Nests opened := by
  obtain ⟨⟨start, label, bare, rest⟩, hstart, rfl⟩ := Option.map_eq_some_iff.1 h
  dsimp only
  unfold heredocToken
  split_ifs
  · split
    · exact ⟨id, fun _ => rfl⟩
    · exact ⟨id, fun h => absurd rfl h⟩
  · have hquote : (Quote.heredoc label).Named := scanHeredocStart_label hstart
    exact templateLexeme_nests_same _ hquote ..

/-- A brace may close an expression, and go on with the text around it. -/
theorem symbolLexeme_nests (opened : List OpenTemplate) (cs : List Char) :
    (symbolLexeme opened cs).Nests opened := by
  unfold symbolLexeme
  split
  · exact ⟨id, fun h => absurd rfl h⟩
  · rename_i s rest _
    rcases symbolToken_cases opened s with ⟨opened', hquotes, heq⟩ | ⟨quote, more, -, rfl, heq⟩
    · rw [heq]
      refine ⟨fun h t ht => ?_, fun _ => ?_⟩
      · have hmem : t.quote ∈ opened.map OpenTemplate.quote := hquotes ▸ List.mem_map_of_mem ht
        obtain ⟨t', ht', heq'⟩ := List.mem_map.1 hmem
        exact heq' ▸ h t' ht'
      · have hlength := congrArg List.length hquotes
        rw [List.length_map, List.length_map] at hlength
        exact hlength
    · rw [heq]
      exact templateLexeme_nests (fun h => h _ (List.mem_cons_self ..))
        (fun h t ht => h t (List.mem_cons_of_mem _ ht)) rfl rfl _ _

/-- So every token opens and closes what its kind says. -/
theorem scanToken_nests (opened : List OpenTemplate) (cs : List Char) :
    (scanToken opened cs).Nests opened := by
  unfold scanToken
  -- Only a brace or the end of a template changes what is open.
  split
  · exact quotedLexeme_nests ..
  · exact templateLexeme_nests_same .double trivial ..
  · exact templateLexeme_nests_same .backtick trivial ..
  · rename_i rest
    cases h : heredocLexeme? opened rest with
    | none => exact symbolLexeme_nests opened ('<' :: '<' :: '<' :: rest)
    | some lexeme => exact heredocLexeme?_nests h
  · split_ifs
    · exact quotedLexeme_nests ..
    · exact templateLexeme_nests_same .double trivial ..
    · exact ⟨id, fun _ => rfl⟩
    · exact ⟨id, fun _ => rfl⟩
    · exact ⟨id, fun _ => rfl⟩
    · exact symbolLexeme_nests ..
  · split_ifs
    · exact ⟨id, fun _ => rfl⟩
    · exact ⟨id, fun _ => rfl⟩
    · exact symbolLexeme_nests ..
  · exact ⟨id, fun _ => rfl⟩

/-! ## The last token -/

/-- Alone the end of a statement is a symbol, as no longer one begins with it but `::`. -/
theorem scanSymbol?_of_isEnd (he : isEnd e) {w : List Char} (hw : w.head? ≠ some ':') :
    scanSymbol? (e :: w) = some (.ofList [e], w) := by
  rcases isEnd_iff.1 he with rfl | rfl | rfl
  · rfl
  · rfl
  · cases w with
    | nil => rfl
    | cons d w =>
      have hd : ':' ≠ d := fun h => hw (by rw [h]; rfl)
      simp [scanSymbol?, symbols, hd]
      rfl

theorem symbolLexeme_of_isEnd (he : isEnd e) {opened : List OpenTemplate} {w : List Char}
    (h : (symbolLexeme opened (e :: w)).kind = .symbol) :
    ∃ opened', opened'.map OpenTemplate.quote = opened.map OpenTemplate.quote ∧
      ∀ w' : List Char, w'.head? ≠ some ':' → symbolLexeme opened (e :: w') = ⟨.symbol, [e], opened', w'⟩ := by
  rcases symbolToken_cases opened (.ofList [e]) with ⟨opened', hquotes, heq⟩ | ⟨quote, more, hs, rfl, heq⟩
  · refine ⟨opened', hquotes, fun w' hw' => ?_⟩
    rw [symbolLexeme, scanSymbol?_of_isEnd he hw']
    exact (heq w').trans (by rw [String.toList_ofList])
  · -- The brace would return to the text around it.
    have hbrace : e = '\x7d' := by
      rcases isEnd_iff.1 he with rfl | rfl | rfl
      · exact absurd hs (by decide)
      · rfl
      · exact absurd hs (by decide)
    subst hbrace
    have hkind : (symbolToken (⟨quote, 0⟩ :: more) "\x7d" w).kind = .symbol := h
    have htemplate : (templateLexeme quote .templateTail .templateMiddle ['\x7d'] more w).kind ≠ .symbol := by
      unfold templateLexeme
      split <;> nofun
    exact absurd hkind htemplate

/-! ## All tokens -/

/-- The two tokens spell the start of a comment. -/
def Token.spellsComment (t next : Token) : Bool :=
  t.isSymbol "/" && next.lead.isEmpty && next.kind == .symbol && next.text.toList.head? == some '*'

/-- A token behind no markup has none in front. -/
theorem Token.markup_notMem_lead {t : Token} (h : t.followsMarkup = false) (text : String) :
    .markup text ∉ t.lead := by
  intro hmem
  have hany : t.followsMarkup = true := List.any_eq_true.2 ⟨_, hmem, rfl⟩
  rw [h] at hany
  cases hany

/-- A star is a symbol. -/
theorem kind_scanToken_star (opened : List OpenTemplate) (r : List Char) :
    (scanToken opened ('*' :: r)).kind = .symbol := by
  have hscan : scanToken opened ('*' :: r) = symbolLexeme opened ('*' :: r) := by cases r <;> rfl
  obtain ⟨s, hs⟩ : ∃ s, symbols.find? (fun s => s.toList.isPrefixOf ('*' :: r)) = some s :=
    Option.isSome_iff_exists.1 (List.find?_isSome.2 ⟨"*", by decide, rfl⟩)
  have hbrace : s ≠ "\x7d" := by
    rintro rfl
    exact absurd (List.find?_some hs) Bool.false_ne_true
  have hsymbol : scanSymbol? ('*' :: r) = some (s, ('*' :: r).drop s.length) := by
    rw [scanSymbol?, hs]
    rfl
  rw [hscan, symbolLexeme, hsymbol]
  rcases symbolToken_cases opened s with ⟨opened', -, heq⟩ | ⟨quote, more, hs, -, -⟩
  · exact congrArg Lexeme.kind (heq _)
  · exact absurd hs hbrace

/-- A sign that opens a comment, where no comment is, and the rest of it. -/
theorem spellsComment_of_slash {opened opened' : List OpenTemplate} {line line' : Nat}
    {cs r : List Char} (h : (leadOf cs).2 = '/' :: '*' :: r) :
    (firstOf opened line cs).spellsComment (firstOf opened' line' (lexemeOf opened cs).rest) := by
  have hscan : scanToken opened ('/' :: '*' :: r) = ⟨.symbol, ['/'], opened, '*' :: r⟩ := by
    cases opened <;> rfl
  have hlead : leadOf ('*' :: r) = ([], '*' :: r) := by
    apply leadOf_of_none
    rw [scanTrivia_other] <;> simp [isSpace]
  have hfirst : lexemeOf opened cs = ⟨.symbol, ['/'], opened, '*' :: r⟩ := by rw [lexemeOf, h, hscan]
  have hnext : (lexemeOf opened' ('*' :: r)).text.head? = some '*' := by
    have hcuts := scanToken_cuts opened' (List.cons_ne_nil '*' r)
    rw [lexemeOf, hlead]
    obtain ⟨c, text, htext⟩ := List.exists_cons_of_ne_nil hcuts.ne_nil
    have happend := hcuts.append_eq
    rw [htext, List.cons_append] at happend
    rw [htext, (List.cons.inj happend).1]
    rfl
  have hkind : (lexemeOf opened' ('*' :: r)).kind = .symbol := by
    rw [lexemeOf, hlead]
    exact kind_scanToken_star opened' r
  simp [Token.spellsComment, Token.isSymbol, firstOf, hfirst, hlead, hnext, hkind]

end ApiCatalog.Php
