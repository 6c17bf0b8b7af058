import ApiCatalog.Proofs.Php.Lexer.Token
import Mathlib.Algebra.GroupWithZero.Nat

/-!
# Text behind the end of a statement

Behind a semicolon, a closing brace or the colon of a label, where no text with expressions is open,
other text may take the place of what stood there: the tokens up to that end stay as they were, and
those of the other text follow (`tokensOf_end`). Two things could go wrong. A colon behind the end
would make one symbol with it, and a comment that opens in front of the end could close behind it.

Behind the last token of a text there may be blanks and comments. In front of other text they are
passed over in the same way, if the last comment does not run on into that (`leadOf_append_right`).
-/

namespace ApiCatalog.Php

/-- How many texts with expressions open with the tokens. -/
def opensIn (ts : List Token) : Nat := (ts.map fun t => t.kind.opens).sum

/-- How many texts with expressions close with the tokens. -/
def closesIn (ts : List Token) : Nat := (ts.map fun t => t.kind.closes).sum

theorem opensIn_concat_stop {stop : Token} (h : stop.kind = .stop) (ts : List Token) :
    opensIn (ts ++ [stop]) = opensIn ts := by
  simp [opensIn, h, TokenKind.opens]

theorem closesIn_concat_stop {stop : Token} (h : stop.kind = .stop) (ts : List Token) :
    closesIn (ts ++ [stop]) = closesIn ts := by
  simp [closesIn, h, TokenKind.closes]

/-- No two tokens one behind the other spell the start of a comment. -/
def NoOpenComment (ts : List Token) : Prop := ts.IsChain fun t next => t.spellsComment next = false

instance (ts : List Token) : Decidable (NoOpenComment ts) :=
  inferInstanceAs (Decidable (ts.IsChain fun t next => t.spellsComment next = false))

theorem exists_isEnd {t : Token} (h : t.endsStatement) :
    t.kind = .symbol ∧ ∃ e, isEnd e ∧ t.text = .ofList [e] := by
  rw [Token.endsStatement, Bool.and_eq_true, beq_iff_eq, List.contains_iff_mem] at h
  refine ⟨h.1, ?_⟩
  have htext : t.text = ";" ∨ t.text = "\x7d" ∨ t.text = ":" := by simpa using h.2
  rcases htext with htext | htext | htext
  · exact ⟨';', rfl, htext⟩
  · exact ⟨'\x7d', rfl, htext⟩
  · exact ⟨':', rfl, htext⟩

variable {e : Char} {opened : List OpenTemplate} {line : Nat} {cs w x : List Char}

/-- The same first token in front of other text. -/
theorem firstOf_congr {cs' : List Char} (hlead : (leadOf cs').1 = (leadOf cs).1)
    (hkind : (lexemeOf opened cs').kind = (lexemeOf opened cs).kind)
    (htext : (lexemeOf opened cs').text = (lexemeOf opened cs).text) :
    firstOf opened line cs' = firstOf opened line cs := by
  rw [firstOf, firstOf, hlead, hkind, htext]

/-- The first token of the text stays, and so does what it leaves, where other text stands behind
an end of a statement that it leaves too. -/
theorem tokensOf_step (he : isEnd e) (hnamed : ∀ t ∈ opened, t.quote.Named)
    (hmore : (lexemeOf opened cs).kind.isLast = false)
    (hmarkup : (firstOf opened line cs).followsMarkup = false)
    (hblock : ¬['/', '*'] <+: (leadOf cs).2) (hrest : (lexemeOf opened cs).rest = x ++ e :: w) :
    ∃ y, cs = y ++ e :: w ∧ ∀ w', tokensOf opened line (y ++ e :: w') =
      firstOf opened line cs ::
        tokensOf (lexemeOf opened cs).opened (firstOf opened line cs).lastLine (x ++ e :: w') := by
  obtain ⟨hstop, hbroken⟩ := TokenKind.isLast_eq_false.1 hmore
  have hfront : (leadOf cs).2 = ((lexemeOf opened cs).text ++ x) ++ e :: w := by
    rw [List.append_assoc, ← hrest, (lexemeOf_cuts hstop).append_eq]
  have hcs : cs = ((leadOf cs).1.flatMap (fun t => t.text.toList) ++
      ((lexemeOf opened cs).text ++ x)) ++ e :: w := by
    rw [List.append_assoc, ← hfront, leadOf_append]
  refine ⟨_, hcs, fun w' => ?_⟩
  generalize hy : (leadOf cs).1.flatMap (fun t => t.text.toList) ++
    ((lexemeOf opened cs).text ++ x) = y at hcs
  have hblock' : ¬['/', '*'] <+: (lexemeOf opened cs).text ++ x := fun h =>
    hblock (hfront ▸ h.trans (List.prefix_append _ _))
  have hlead : ∀ w', leadOf (y ++ e :: w') = ((leadOf cs).1, ((lexemeOf opened cs).text ++ x) ++ e :: w') := by
    refine leadOf_end he y _ w _ ?_ (Token.markup_notMem_lead hmarkup) hblock'
    rw [← hcs]
    exact Prod.ext rfl hfront
  -- The token is whole in front of the end.
  have hscan : scanToken opened (((lexemeOf opened cs).text ++ x) ++ e :: w) = lexemeOf opened cs := by
    rw [← hfront]
    rfl
  have hin := (token_scan he (fun t ht => (hnamed t ht).avoids he) ((lexemeOf opened cs).text ++ x)).resolve_right
    fun hpast => by
      have h := hpast w
      rw [hscan, hrest, List.length_append, List.length_cons] at h
      rcases h with h | h
      · exact hbroken h
      · omega
  obtain ⟨kind, text, opened', r, hdone⟩ := hin
  have hthis := (hdone w).symm.trans hscan
  have hr : r = x := List.append_cancel_right ((congrArg Lexeme.rest hthis).trans hrest)
  subst hr
  have hlexeme : lexemeOf opened (y ++ e :: w') = ⟨(lexemeOf opened cs).kind,
      (lexemeOf opened cs).text, (lexemeOf opened cs).opened, r ++ e :: w'⟩ := by
    rw [lexemeOf, hlead, hdone, ← hthis]
  have hkind := congrArg Lexeme.kind hlexeme
  have hfirst : firstOf opened line (y ++ e :: w') = firstOf opened line cs :=
    firstOf_congr (by rw [hlead]) hkind (by rw [hlexeme])
  rw [tokensOf_of_more (hkind ▸ hmore), hfirst, hlexeme]

/-- The first token of the text stays, if it is the end of a statement. -/
theorem tokensOf_last (he : isEnd e) (hkind : (lexemeOf opened cs).kind = .symbol)
    (htext : (lexemeOf opened cs).text = [e])
    (hmarkup : (firstOf opened line cs).followsMarkup = false) :
    ∃ y, cs = y ++ e :: (lexemeOf opened cs).rest ∧ ∃ opened' : List OpenTemplate,
      opened'.map OpenTemplate.quote = opened.map OpenTemplate.quote ∧
      ∀ w' : List Char, w'.head? ≠ some ':' → tokensOf opened line (y ++ e :: w') =
        firstOf opened line cs :: tokensOf opened' (firstOf opened line cs).lastLine w' := by
  have hstop : (lexemeOf opened cs).kind ≠ .stop := hkind ▸ nofun
  -- The last token is the end itself; its lead is all that stands in front.
  have hfront : (leadOf cs).2 = [] ++ e :: (lexemeOf opened cs).rest := by
    have h := (lexemeOf_cuts hstop).append_eq
    rw [htext] at h
    exact h.symm
  have hcs : cs = (leadOf cs).1.flatMap (fun t => t.text.toList) ++ e :: (lexemeOf opened cs).rest := by
    rw [← List.nil_append (e :: _), ← hfront, leadOf_append]
  refine ⟨_, hcs, ?_⟩
  generalize (leadOf cs).1.flatMap (fun t => t.text.toList) = y at hcs
  -- The lead does not depend on what stands behind the end.
  have hlead : ∀ w', leadOf (y ++ e :: w') = ((leadOf cs).1, [] ++ e :: w') := by
    refine leadOf_end he y _ (lexemeOf opened cs).rest _ ?_ (Token.markup_notMem_lead hmarkup) (by simp)
    rw [← hcs]
    exact Prod.ext rfl hfront
  have hsymbol : (symbolLexeme opened (e :: (lexemeOf opened cs).rest)).kind = .symbol := by
    rw [← scanToken_of_isEnd he, ← List.nil_append (e :: _), ← hfront]
    exact hkind
  obtain ⟨opened', hquotes, hdone⟩ := symbolLexeme_of_isEnd he hsymbol
  refine ⟨opened', hquotes, fun w' hw' => ?_⟩
  have hlexeme : lexemeOf opened (y ++ e :: w') = ⟨.symbol, [e], opened', w'⟩ := by
    rw [lexemeOf, hlead, List.nil_append, scanToken_of_isEnd he, hdone w' hw']
  have hfirst : firstOf opened line (y ++ e :: w') = firstOf opened line cs :=
    firstOf_congr (by rw [hlead]) (by rw [hlexeme, hkind]) (by rw [hlexeme, htext])
  rw [tokensOf_of_more (by rw [hlexeme]; rfl), hfirst, hlexeme]

theorem leadOf_of_stop {stop : Token} (h : tokensOf opened line cs = [stop]) (hstop : stop.kind = .stop) :
    leadOf cs = (stop.lead, []) := by
  obtain ⟨rest, hfirst⟩ := exists_tokensOf opened line cs
  obtain ⟨rfl, -⟩ := List.cons.inj (h.symm.trans hfirst)
  exact Prod.ext rfl (kind_lexemeOf_eq_stop.1 hstop)

/-- The text `cs` is `x`, the end `e` of a statement, and `w`, in which no token stands. It is read as
the tokens `ts` up to that end, and so is every text that has something else there: what that is, is
read behind them. -/
structure EndsAt (opened : List OpenTemplate) (line : Nat) (cs : List Char) (ts : List Token)
    (stop : Token) (x : List Char) (e : Char) (w : List Char) (opened' : List OpenTemplate)
    (line' : Nat) : Prop where
  isEnd : isEnd e
  text : cs = x ++ e :: w
  behind : leadOf w = (stop.lead, [])
  depth : opened'.length + closesIn ts = opened.length + opensIn ts
  /-- A colon would be part of the token at the end. -/
  tokens : ∀ w' : List Char, w'.head? ≠ some ':' →
    tokensOf opened line (x ++ e :: w') = ts ++ tokensOf opened' line' w'

/-- The first token is the last one. -/
theorem exists_endsAt_singleton {stop : Token} (hend : (firstOf opened line cs).endsStatement)
    (hmarkup : (firstOf opened line cs).followsMarkup = false)
    (hrest : tokensOf (lexemeOf opened cs).opened (firstOf opened line cs).lastLine
      (lexemeOf opened cs).rest = [stop]) (hstop : stop.kind = .stop) :
    ∃ x e opened', EndsAt opened line cs [firstOf opened line cs] stop x e (lexemeOf opened cs).rest
      opened' (firstOf opened line cs).lastLine := by
  obtain ⟨hkind, e, he, htext⟩ := exists_isEnd hend
  obtain ⟨x, hcs, opened', hquotes, hdone⟩ :=
    tokensOf_last he hkind (String.ofList_injective htext) hmarkup
  refine ⟨x, e, opened', he, hcs, leadOf_of_stop hrest hstop, ?_, hdone⟩
  have hlength := congrArg List.length hquotes
  rw [List.length_map, List.length_map] at hlength
  rw [opensIn, closesIn, List.map_singleton, List.map_singleton, hkind]
  exact hlength

/-- One token more stands in front. -/
theorem EndsAt.cons {ts : List Token} {stop : Token} {opened' : List OpenTemplate} {line' : Nat}
    (h : EndsAt (lexemeOf opened cs).opened (firstOf opened line cs).lastLine
      (lexemeOf opened cs).rest ts stop x e w opened' line')
    (hmore : (lexemeOf opened cs).kind.isLast = false)
    (hmarkup : (firstOf opened line cs).followsMarkup = false)
    (hblock : ¬['/', '*'] <+: (leadOf cs).2) (hnamed : ∀ t ∈ opened, t.quote.Named) :
    ∃ y, EndsAt opened line cs (firstOf opened line cs :: ts) stop y e w opened' line' := by
  obtain ⟨y, hcs, hdone⟩ := tokensOf_step h.isEnd hnamed hmore hmarkup hblock h.text
  refine ⟨y, h.isEnd, hcs, h.behind, ?_, fun w' hw' => ?_⟩
  · have hnests : (lexemeOf opened cs).Nests opened := scanToken_nests ..
    have hfirst := hnests.depth (TokenKind.isLast_eq_false.1 hmore).2
    have hrest := h.depth
    have hkind : (firstOf opened line cs).kind = (lexemeOf opened cs).kind := rfl
    simp only [opensIn, closesIn, List.map_cons, List.sum_cons, hkind] at hrest ⊢
    omega
  · rw [hdone, h.tokens w' hw']
    rfl

/-- No comment opens where two tokens follow each other that do not spell its start. -/
theorem not_isPrefix_of_spellsComment {next : Token} {ts : List Token}
    (hrest : tokensOf (lexemeOf opened cs).opened (firstOf opened line cs).lastLine
      (lexemeOf opened cs).rest = next :: ts)
    (hspells : (firstOf opened line cs).spellsComment next = false) :
    ¬['/', '*'] <+: (leadOf cs).2 := by
  rintro ⟨r, hr⟩
  obtain ⟨rest, hnext⟩ := exists_tokensOf (lexemeOf opened cs).opened
    (firstOf opened line cs).lastLine (lexemeOf opened cs).rest
  obtain ⟨rfl, -⟩ := List.cons.inj (hrest.symm.trans hnext)
  rw [spellsComment_of_slash hr.symm] at hspells
  cases hspells

/-- A text whose last token ends a statement can go on behind that in any other way. -/
theorem tokensOf_end (opened : List OpenTemplate) (cs : List Char) :
    ∀ (line : Nat) (ts : List Token) (stop : Token), tokensOf opened line cs = ts ++ [stop] →
      (∃ t, ts.getLast? = some t ∧ t.endsStatement) → stop.kind = .stop →
      (∀ t ∈ ts, t.followsMarkup = false) → NoOpenComment ts →
      (∀ t ∈ opened, t.quote.Named) →
      ∃ x e w opened' line', EndsAt opened line cs ts stop x e w opened' line' := by
  -- Along the tokens: the last one is the end of the statement, any other one is carried along.
  induction opened, cs using tokensOf_induction with
  | last opened cs hlast =>
    intro line ts stop htokens hends _ _ _ _
    rw [tokensOf_of_isLast hlast] at htokens
    obtain ⟨t, ht, -⟩ := hends
    cases ts with
    | nil => cases ht
    | cons _ ts => cases ts <;> cases htokens
  | more opened cs hmore ih =>
    intro line ts stop htokens ⟨last, hlast, hend⟩ hstop hmarkup hcomment hnamed
    rw [tokensOf_of_more hmore] at htokens
    cases ts with
    | nil => cases hlast
    | cons first ts =>
    obtain ⟨rfl, hrest⟩ := List.cons.inj htokens
    have hfirst := hmarkup _ (List.mem_cons_self ..)
    cases ts with
    -- The one token left is the end; the text behind it is free up to a second colon.
    | nil =>
      obtain rfl := Option.some.inj hlast
      obtain ⟨x, e, opened', h⟩ := exists_endsAt_singleton hend hfirst hrest hstop
      exact ⟨x, e, _, opened', _, h⟩
    -- A token in front of it is scanned the same whatever stands behind the end.
    | cons next ts =>
      obtain ⟨hspells, hcomment⟩ := List.isChain_cons_cons.1 hcomment
      have hnests : (lexemeOf opened cs).Nests opened := scanToken_nests ..
      obtain ⟨x, e, w, opened', line', h⟩ := ih (firstOf opened line cs).lastLine (next :: ts) stop
        hrest ⟨last, by rwa [List.getLast?_cons_cons] at hlast, hend⟩ hstop
        (fun t ht => hmarkup t (List.mem_cons_of_mem _ ht)) hcomment (hnests.named hnamed)
      obtain ⟨y, h⟩ := h.cons hmore hfirst (not_isPrefix_of_spellsComment hrest hspells) hnamed
      exact ⟨y, e, w, opened', line', h⟩

/-! ## Other lines -/

theorem tokensOf_moved (opened : List OpenTemplate) (cs : List Char) : ∀ line line',
    List.Forall₂ Token.Moved (tokensOf opened line cs) (tokensOf opened line' cs) := by
  induction opened, cs using tokensOf_induction with
  | last opened cs hlast =>
    intro line line'
    rw [tokensOf_of_isLast hlast, tokensOf_of_isLast hlast]
    exact .cons ⟨_, rfl⟩ .nil
  | more opened cs hmore ih =>
    intro line line'
    rw [tokensOf_of_more hmore, tokensOf_of_more hmore]
    exact .cons ⟨_, rfl⟩ (ih _ _)

/-- Where texts differ in what stands in front of their first token, and in nothing else, their
other tokens are the same on other lines. -/
theorem tokensOf_of_lead {cs' : List Char} (h : (leadOf cs).2 = (leadOf cs').2) (line' : Nat) :
    ∃ t ts t' ts', tokensOf opened line cs = t :: ts ∧ tokensOf opened line' cs' = t' :: ts' ∧
      t.kind = t'.kind ∧ t.text = t'.text ∧ List.Forall₂ Token.Moved ts ts' := by
  have hlexeme : lexemeOf opened cs = lexemeOf opened cs' := by rw [lexemeOf, lexemeOf, h]
  have hkind : (firstOf opened line cs).kind = (firstOf opened line' cs').kind :=
    congrArg Lexeme.kind hlexeme
  have htext : (firstOf opened line cs).text = (firstOf opened line' cs').text := by
    rw [firstOf, firstOf, hlexeme]
  cases hmore : (lexemeOf opened cs').kind.isLast with
  | true =>
    refine ⟨_, [], _, [], tokensOf_of_isLast (by rw [hlexeme, hmore]), tokensOf_of_isLast hmore,
      hkind, htext, .nil⟩
  | false =>
    refine ⟨_, _, _, _, tokensOf_of_more (by rw [hlexeme, hmore]), tokensOf_of_more hmore, hkind,
      htext, ?_⟩
    rw [hlexeme]
    exact tokensOf_moved ..

/-! ## What stands between two texts -/

/-- A comment that ends with its line. -/
def Trivia.isLineComment : Trivia → Bool
  | .comment text => !List.isPrefixOf ['/', '*'] text.toList
  | _ => false

theorem scanTrivia_of_isSpace {c : Char} (h : isSpace c) (cs : List Char) :
    scanTrivia (c :: cs) =
      some (.blank (.ofList (c :: cs.takeWhile isSpace)), cs.dropWhile isSpace) := by
  rw [scanTrivia_other, if_pos h] <;> (rintro ⟨rfl, -⟩; revert h; decide)

theorem scanBlockComment_append_right {taken rest : List Char} (y : List Char)
    (h : scanBlockComment cs = some (taken, rest)) :
    scanBlockComment (cs ++ y) = some (taken, rest ++ y) := by
  fun_induction scanBlockComment cs generalizing taken rest with
  | case1 => cases h
  | case2 rest' => cases h; rfl
  | case3 c rest' hne ih =>
    obtain ⟨⟨taken', rest''⟩, hscan, heq⟩ := Option.map_eq_some_iff.1 h
    cases heq
    rw [List.cons_append, scanBlockComment, ih hscan]
    · rfl
    · rintro rest rfl hrest
      cases rest' with
      | nil => cases hscan
      | cons d rest' => cases hrest; exact hne _ rfl rfl

theorem scanLineComment_append_right (y : List Char) (h : (scanLineComment cs).2 ≠ []) :
    scanLineComment (cs ++ y) = ((scanLineComment cs).1, (scanLineComment cs).2 ++ y) := by
  induction cs with
  | nil => exact absurd rfl h
  | cons c cs ih =>
    rw [scanLineComment] at h ⊢
    split_ifs at h ⊢ with hstop
    · have hstop' : c == '\n' || c == '\r' || (c == '?' && (cs ++ y).head? == some '>') := by
        cases cs with
        | nil =>
          simp only [List.head?_nil, Bool.or_eq_true] at hstop ⊢
          exact .inl (hstop.resolve_right (by simp))
        | cons d cs => exact hstop
      rw [List.cons_append, scanLineComment, if_pos hstop']
    · have hstop' : ¬(c == '\n' || c == '\r' || (c == '?' && (cs ++ y).head? == some '>')) = true := by
        cases cs with
        | nil => exact absurd rfl h
        | cons d cs => exact hstop
      rw [List.cons_append, scanLineComment, if_neg hstop', ih h]

theorem leadOf_dropWhile (y : List Char) : (leadOf (y.dropWhile isSpace)).2 = (leadOf y).2 := by
  cases y with
  | nil => rfl
  | cons c y =>
    by_cases hspace : isSpace c
    · rw [leadOf_of_some (scanTrivia_of_isSpace hspace y), List.dropWhile_cons, if_pos hspace]
    · rw [List.dropWhile_cons, if_neg hspace]

theorem dropWhile_dropWhile_append (p : Char → Bool) (x y : List Char) :
    (x.dropWhile p ++ y).dropWhile p = (x ++ y).dropWhile p := by
  induction x with
  | nil => rfl
  | cons c x ih =>
    by_cases h : p c
    · simp [h, ih]
    · simp [h]

/-- A stretch that is no token is passed over in front of other text too. -/
theorem leadOf_of_scanTrivia {trivia : Trivia} {rest : List Char} (y : List Char)
    (h : scanTrivia cs = some (trivia, rest)) (hmarkup : ∀ text, trivia ≠ .markup text)
    (hline : trivia.isLineComment → rest ≠ []) : (leadOf (cs ++ y)).2 = (leadOf (rest ++ y)).2 := by
  have hpass : ∀ {t : Trivia}, scanTrivia (cs ++ y) = some (t, rest ++ y) →
      (leadOf (cs ++ y)).2 = (leadOf (rest ++ y)).2 := fun hscan => by rw [leadOf_of_some hscan]
  unfold scanTrivia at h
  -- By the kind of the trivia: each is scanned the same with more text behind it.
  split at h
  · cases h
  · rename_i cs
    obtain ⟨⟨taken, rest'⟩, hscan, heq⟩ := Option.map_eq_some_iff.1 h
    cases heq
    refine hpass (t := .comment (.ofList ('/' :: '*' :: taken))) ?_
    rw [List.cons_append, List.cons_append, scanTrivia, scanBlockComment_append_right y hscan]
    rfl
  · rename_i cs
    cases h
    -- A line comment that reaches the end of the text would go on into the text behind it.
    have hrest : (scanLineComment cs).2 ≠ [] := hline (by rw [Trivia.isLineComment, String.toList_ofList]; rfl)
    refine hpass (t := .comment (.ofList ('/' :: '/' :: (scanLineComment cs).1))) ?_
    rw [List.cons_append, List.cons_append, scanTrivia, scanLineComment_append_right y hrest]
  · cases h
    exact absurd rfl (hmarkup _)
  · rename_i c cs hblock hcomment hmark
    split_ifs at h with hspace hhash
    · cases h
      rw [List.cons_append, leadOf_of_some (scanTrivia_of_isSpace hspace _), leadOf_dropWhile,
        ← leadOf_dropWhile, ← dropWhile_dropWhile_append, leadOf_dropWhile]
    · cases h
      have hrest : (scanLineComment cs).2 ≠ [] := hline (by rw [Trivia.isLineComment, String.toList_ofList]; rfl)
      -- A hash in front of a bracket opens an attribute, so one more character is looked at.
      obtain ⟨d, cs, rfl⟩ := List.exists_cons_of_ne_nil (l := cs) (by rintro rfl; exact hrest rfl)
      refine hpass (t := .comment (.ofList ('#' :: (scanLineComment (d :: cs)).1))) ?_
      obtain rfl : c = '#' := by simpa using (Bool.and_eq_true_iff.1 hhash).1
      have hhash' : ('#' == '#' && (d :: cs ++ y).head? != some '[') = true := hhash
      rw [List.cons_append, scanTrivia_other (by simp) (by simp) (by simp), if_neg hspace,
        if_pos hhash', scanLineComment_append_right y hrest]

theorem leadOf_append_right : ∀ (w y : List Char) (lead : List Trivia), leadOf w = (lead, []) →
    (∀ text, .markup text ∉ lead) → (lead.getLast?.any Trivia.isLineComment) = false →
    (leadOf (w ++ y)).2 = (leadOf y).2 := by
  intro w
  -- On the length, since what the trivia leave is a shorter text.
  induction hn : w.length using Nat.strong_induction_on generalizing w with
  | _ n ih =>
    intro y lead hlead hmarkup hline
    cases hscan : scanTrivia w with
    | none =>
      rw [leadOf_of_none hscan] at hlead
      obtain rfl := (Prod.mk.inj hlead).2
      rfl
    | some found =>
      obtain ⟨trivia, rest⟩ := found
      rw [leadOf_of_some hscan] at hlead
      obtain ⟨rfl, hrest⟩ := Prod.mk.inj hlead
      have hlt := (scanTrivia_cuts hscan).length_lt
      have hmore : (leadOf rest).1.getLast?.any Trivia.isLineComment = false := by
        -- Only the last of the trivia may not be a line comment, and the rest has the same last
        -- one.
        cases hr : (leadOf rest).1 with
        | nil => rfl
        | cons t ts => rwa [hr, List.getLast?_cons_cons] at hline
      rw [leadOf_of_scanTrivia y hscan (fun text h => hmarkup text (h ▸ List.mem_cons_self ..)) ?_]
      · exact ih rest.length (hn ▸ hlt) rest rfl y _ (Prod.ext rfl hrest)
          (fun text h => hmarkup text (List.mem_cons_of_mem _ h)) hmore
      -- With nothing left the comment would be the last of the trivia.
      · rintro hcomment rfl
        have hnil : (leadOf []).1 = [] := rfl
        rw [hnil] at hline
        have hthis : Trivia.isLineComment trivia = false := hline
        rw [hcomment] at hthis
        cases hthis

end ApiCatalog.Php
