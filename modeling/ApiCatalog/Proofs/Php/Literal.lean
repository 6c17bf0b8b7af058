import ApiCatalog.Php.Lexer
import ApiCatalog.Php.Literal
import ApiCatalog.Proofs.Text.Blank
import Mathlib.Algebra.Group.Nat.Even

/-!
# Literals read back

A literal is read twice: the lexer looks for the quote that ends it, and `unquote` takes the
backslashes out of what stands between its quotes. Both pass over a backslash together with the
character behind it, so a text that was escaped comes back from both, whatever follows the literal,
and whether quotes of the other kind were escaped too (`Spells.unescapes`). What is left of any
other text is told by what stands behind each backslash in it (`unescape_eq_iff`). Backslashes may
also stand in front of an escaped text that starts with none: they come back as some backslashes,
and the text behind them is the same.
-/

namespace ApiCatalog.Php

open Text

variable {c q : Char} {cs body written text before after : List Char} {n : Nat}

/-! ## Escaping -/

/-- A character that is neither a backslash nor the quote is not escaped. -/
theorem escape_cons_of_plain (hc : c ≠ '\\') (hq : c ≠ q) (cs : List Char) :
    escape q (c :: cs) = c :: escape q cs := by
  rw [escape, if_neg (by simp [hc, hq])]

/-- Every character is written as it is or behind a backslash. -/
theorem escape_cons_cases (q c : Char) (cs : List Char) :
    (c ≠ '\\' ∧ c ≠ q ∧ escape q (c :: cs) = c :: escape q cs) ∨
      ((c = '\\' ∨ c = q) ∧ escape q (c :: cs) = '\\' :: c :: escape q cs) := by
  by_cases h : c = '\\' ∨ c = q
  · exact .inr ⟨h, by rw [escape, if_pos (by simpa using h)]⟩
  · obtain ⟨hc, hq⟩ := not_or.1 h
    exact .inl ⟨hc, hq, escape_cons_of_plain hc hq cs⟩

/-- Escaping adds backslashes only. -/
theorem eq_or_mem_of_mem_escape {d : Char} (h : d ∈ escape q cs) : d = '\\' ∨ d ∈ cs := by
  induction cs with
  | nil => cases h
  | cons c cs ih =>
    rcases escape_cons_cases q c cs with ⟨-, -, hcons⟩ | ⟨-, hcons⟩ <;> rw [hcons] at h
    · rcases List.mem_cons.1 h with rfl | h
      · exact .inr List.mem_cons_self
      · exact (ih h).imp_right (List.mem_cons_of_mem _)
    · rcases List.mem_cons.1 h with rfl | h
      · exact .inl rfl
      rcases List.mem_cons.1 h with rfl | h
      · exact .inr List.mem_cons_self
      · exact (ih h).imp_right (List.mem_cons_of_mem _)

/-! ## The end of a literal -/

/-- Between single quotes, the lexer ends the literal right behind the text. -/
def StaysQuoted (body : List Char) : Prop :=
  ∀ rest, scanQuoted (body ++ '\'' :: rest) = some (body ++ ['\''], rest)

namespace StaysQuoted

theorem nil : StaysQuoted [] := fun _ => rfl

theorem cons (hc : c ≠ '\\') (hq : c ≠ '\'') (h : StaysQuoted body) : StaysQuoted (c :: body) := by
  intro rest
  have hstep : scanQuoted (c :: (body ++ '\'' :: rest)) =
      (scanQuoted (body ++ '\'' :: rest)).map fun p => (c :: p.1, p.2) := by
    rw [scanQuoted.eq_def]
    split <;> simp_all
  rw [List.cons_append, hstep, h rest]
  rfl

/-- A backslash hides whatever character stands behind it. -/
theorem hidden (c : Char) (h : StaysQuoted body) : StaysQuoted ('\\' :: c :: body) := by
  intro rest
  rw [List.cons_append, List.cons_append, scanQuoted, h rest]
  rfl

theorem escape (cs : List Char) : StaysQuoted (escape '\'' cs) := by
  induction cs with
  | nil => exact nil
  | cons c cs ih =>
    rcases escape_cons_cases '\'' c cs with ⟨hc, hq, h⟩ | ⟨-, h⟩ <;> rw [h]
    · exact ih.cons hc hq
    · exact ih.hidden c

/-- The last of an odd number of backslashes in front hides the first character, which then must
be none that is escaped itself. -/
theorem replicate_append (hc : c ≠ '\\') (cs : List Char) :
    ∀ {n : Nat}, Even n ∨ c ≠ '\'' →
      StaysQuoted (List.replicate n '\\' ++ Php.escape '\'' (c :: cs))
  | 0, _ => escape (c :: cs)
  | 1, hn => by
    rw [escape_cons_of_plain hc (hn.resolve_left (by decide))]
    exact (escape cs).hidden c
  | n + 2, hn => by
    have hrest := replicate_append hc cs (hn.imp_left fun h => (Nat.even_add.1 h).2 (by decide))
    exact hrest.hidden '\\'

end StaysQuoted

/-! ## Taking backslashes out -/

/-- `written` is the text with a backslash in front of every backslash and every `quote`; a quote of
the other kind may have one too. -/
inductive Spells (quote : Char) : List Char → List Char → Prop where
  | nil : Spells quote [] []
  | plain {c : Char} {written text : List Char} (hslash : c ≠ '\\') (hquote : c ≠ quote)
      (h : Spells quote written text) : Spells quote (c :: written) (c :: text)
  | escaped {c : Char} {written text : List Char} (hc : c = '\\' ∨ isQuote c = true)
      (h : Spells quote written text) : Spells quote ('\\' :: c :: written) (c :: text)

/-- From left to right, each backslash in front of a backslash or quote is gone, and what it stood
in front of is left. -/
inductive Unescapes : List Char → List Char → Prop where
  | nil : Unescapes [] []
  | plain {c : Char} {written text : List Char}
      (hc : c = '\\' → ∀ d ∈ written.head?, ¬(d = '\\' ∨ isQuote d = true))
      (h : Unescapes written text) : Unescapes (c :: written) (c :: text)
  | escaped {c : Char} {written text : List Char} (hc : c = '\\' ∨ isQuote c = true)
      (h : Unescapes written text) : Unescapes ('\\' :: c :: written) (c :: text)

/-- A character that hides nothing behind it stays. -/
theorem unescape_plain (hc : c = '\\' → ∀ d ∈ cs.head?, ¬(d = '\\' ∨ isQuote d = true)) :
    unescape (c :: cs) = c :: unescape cs := by
  by_cases hslash : c = '\\'
  · subst hslash
    cases cs with
    | nil => rfl
    | cons d rest => rw [unescape, if_neg (by simpa using hc rfl d rfl)]
  · rw [unescape.eq_def]
    split <;> simp_all

theorem unescape_cons (hc : c ≠ '\\') (cs : List Char) : unescape (c :: cs) = c :: unescape cs :=
  unescape_plain fun hslash => absurd hslash hc

/-- A backslash in front of a backslash or a quote is taken out. -/
theorem unescape_hidden (hc : c = '\\' ∨ isQuote c = true) (cs : List Char) :
    unescape ('\\' :: c :: cs) = c :: unescape cs := by
  rw [unescape, if_pos (by simpa using hc)]

/-- Taking backslashes out is what the relation says. -/
theorem Unescapes.unescape_eq (h : Unescapes written text) : unescape written = text := by
  induction h with
  | nil => rfl
  | plain hc _ ih => rw [unescape_plain hc, ih]
  | escaped hc _ ih => rw [unescape_hidden hc, ih]

theorem unescapes_unescape (written : List Char) : Unescapes written (unescape written) := by
  fun_induction unescape written with
  | case1 d rest hd ih => exact .escaped (by simpa using hd) ih
  | case2 d rest hd ih =>
    refine .plain (fun _ e he => ?_) ih
    obtain rfl : d = e := Option.some.inj he
    simpa using hd
  | case3 c rest hrest ih =>
    refine .plain (fun hslash d hd => ?_) ih
    obtain ⟨more, rfl⟩ := List.head?_eq_some_iff.1 hd
    exact (hrest d more hslash rfl).elim
  | case4 => exact .nil

/-- There is one way to undo the escapes of a text. -/
theorem unescape_eq_iff : unescape written = text ↔ Unescapes written text :=
  ⟨fun h => h ▸ unescapes_unescape written, Unescapes.unescape_eq⟩

/-- A spelling comes to its text without its backslashes. -/
theorem Spells.unescapes (h : Spells q written text) : Unescapes written text := by
  induction h with
  | nil => exact .nil
  | plain hslash _ _ ih => exact .plain (fun heq => absurd heq hslash) ih
  | escaped hc _ ih => exact .escaped hc ih

/-- Escaping is one of the spellings. -/
theorem spells_escape (hq : isQuote q) (cs : List Char) : Spells q (escape q cs) cs := by
  induction cs with
  | nil => exact .nil
  | cons c cs ih =>
    rcases escape_cons_cases q c cs with ⟨hc, hcq, h⟩ | ⟨hc, h⟩ <;> rw [h]
    · exact .plain hc hcq ih
    · have hwritten : c = '\\' ∨ isQuote c = true := hc.imp_right fun heq : c = q => heq ▸ hq
      exact .escaped hwritten ih

theorem unescape_escape (hq : isQuote q) (cs : List Char) : unescape (escape q cs) = cs :=
  (spells_escape hq cs).unescapes.unescape_eq

/-- Backslashes in front of an escaped text stay in front of it. -/
theorem dropLeading_unescape (hq : isQuote q) (hc : c ≠ '\\') (cs : List Char) :
    ∀ {n : Nat}, Even n ∨ c ≠ q →
      dropLeading '\\' (unescape (List.replicate n '\\' ++ escape q (c :: cs))) = c :: cs
  | 0, _ => by
    rw [List.replicate_zero, List.nil_append, unescape_escape hq]
    exact List.dropWhile_cons_of_neg (by simpa using hc)
  | 1, hn => by
    rw [escape_cons_of_plain hc (hn.resolve_left (by decide))]
    have hbare : dropLeading '\\' (c :: cs) = c :: cs :=
      List.dropWhile_cons_of_neg (by simpa using hc)
    -- in front of a quote of the other kind the backslash goes at once
    by_cases hquote : isQuote c = true
    · rw [List.replicate_one, List.singleton_append, unescape_hidden (.inr hquote),
        unescape_escape hq, hbare]
    · have hkept : unescape ('\\' :: c :: escape q cs) = '\\' :: unescape (c :: escape q cs) := by
        rw [unescape, if_neg (by simp [hc, hquote])]
      rw [List.replicate_one, List.singleton_append, hkept, unescape_cons hc, unescape_escape hq]
      exact hbare
  | n + 2, hn => by
    rw [List.replicate_succ, List.replicate_succ, List.cons_append, List.cons_append,
      unescape_hidden (.inl rfl)]
    exact dropLeading_unescape hq hc cs (hn.imp_left fun h => (Nat.even_add.1 h).2 (by decide))

/-! ## Between the quotes -/

theorem isQuote_eq_true : isQuote c = true ↔ c = '\'' ∨ c = '"' := by
  rw [isQuote, Bool.or_eq_true, beq_iff_eq, beq_iff_eq]

theorem isBlank_of_isQuote (hq : isQuote q) : isBlank q = false := by
  rcases isQuote_eq_true.1 hq with rfl | rfl <;> decide

/-- The text stands between two quotes of one kind. -/
def Enclosed (cs : List Char) : Prop := ∃ q body, isQuote q = true ∧ cs = q :: (body ++ [q])

/-- Quotes that belong together are dropped. -/
theorem insideQuotes_quoted (hq : isQuote q) (body : List Char) :
    insideQuotes (q :: (body ++ [q])) = body := by
  obtain ⟨d, rest, hrest⟩ := List.exists_cons_of_ne_nil (l := body ++ [q]) (by simp)
  have hlast : (d :: rest).getLast? = some q := by rw [← hrest, List.getLast?_concat]
  rw [hrest, insideQuotes, hlast, if_pos (by simp [hq]), ← hrest, List.dropLast_concat]

/-- Otherwise nothing is dropped. -/
theorem insideQuotes_of_not_enclosed (h : ¬Enclosed cs) : insideQuotes cs = cs := by
  match cs, h with
  | [], _ => rfl
  | [_], _ => rfl
  | c :: d :: rest, h =>
    refine if_neg fun hquotes => h ?_
    obtain ⟨hc, hlast⟩ := Bool.and_eq_true_iff.1 hquotes
    obtain ⟨body, hbody⟩ := List.getLast?_eq_some_iff.1 (beq_iff_eq.1 hlast)
    exact ⟨c, body, hc, by rw [hbody]⟩

theorem enclosed_iff : Enclosed cs ↔ insideQuotes cs ≠ cs := by
  constructor
  · rintro ⟨q, body, hq, rfl⟩ hsame
    rw [insideQuotes_quoted hq] at hsame
    have hlength := congrArg List.length hsame
    rw [List.length_cons, List.length_append] at hlength
    omega
  · exact not_imp_comm.1 insideQuotes_of_not_enclosed

instance : Decidable (Enclosed cs) := decidable_of_iff' _ enclosed_iff

/-- A literal between quotes is not trimmed. -/
theorem solid_quoted (hq : isQuote q) (body : List Char) : Solid (q :: (body ++ [q])) :=
  have hword : IsWord [q] := isWord_cons (isBlank_of_isQuote hq) nofun
  hword.solid.append hword.solid body

/-- A literal stands for what is between its quotes. -/
theorem unquote_quoted (hq : isQuote q) (body : List Char) :
    unquote (q :: (body ++ [q])) = unescape body := by
  rw [unquote, (solid_quoted hq body).trim_eq, insideQuotes_quoted hq]

/-- A text that is quoted comes back. -/
theorem unquote_quote (hq : isQuote q) (text : List Char) : unquote (quote q text) = text := by
  rw [quote, List.cons_append, unquote_quoted hq, unescape_escape hq]

/-- White space around a literal makes no difference. -/
theorem unquote_surrounded (hbefore : ∀ c ∈ before, isBlank c = true)
    (hafter : ∀ c ∈ after, isBlank c = true) (literal : List Char) :
    unquote (before ++ (literal ++ after)) = unquote literal := by
  rw [unquote, trim_surrounded hbefore hafter, ← unquote]

/-- A literal without quotes is trimmed and unescaped. -/
theorem unquote_of_not_enclosed {literal : List Char} (h : ¬Enclosed (trim literal)) :
    unquote literal = unescape (trim literal) := by
  rw [unquote, insideQuotes_of_not_enclosed h]

/-- A text that is spelled between two quotes comes back, whatever blanks stand around them. Of any
other text only the blanks at its ends are gone, and the backslashes of the same escapes. -/
theorem unquote_literal :
    (∀ q before written after text, isQuote q = true → (∀ c ∈ before, isBlank c = true) →
        (∀ c ∈ after, isBlank c = true) → Spells q written text →
        unquote (before ++ (q :: (written ++ [q]) ++ after)) = text) ∧
      ∀ literal text, ¬Enclosed (trim literal) →
        (unquote literal = text ↔ Unescapes (trim literal) text) := by
  constructor
  · intro q before written after text hq hbefore hafter hspells
    rw [unquote_surrounded hbefore hafter, unquote_quoted hq, hspells.unescapes.unescape_eq]
  · intro literal text hopen
    rw [unquote_of_not_enclosed hopen, unescape_eq_iff]

/-- Between single quotes stands a text that begins with one, ends with a backslash and holds a double
quote that is escaped and one that is not; the other text begins with a quote that does not end it. -/
theorem unquote_literal_single :
    Spells '\'' ['\\', '\'', 'a', '"', '\\', '"', '\\', '\\'] ['\'', 'a', '"', '"', '\\'] ∧
      unquote (['\t'] ++
        ('\'' :: (['\\', '\'', 'a', '"', '\\', '"', '\\', '\\'] ++ ['\'']) ++ ['\n'])) =
          ['\'', 'a', '"', '"', '\\'] ∧
      ¬Enclosed (trim [' ', '\'', '\\', '"', '\\', 'n']) ∧
      Unescapes (trim [' ', '\'', '\\', '"', '\\', 'n']) ['\'', '"', '\\', 'n'] := by
  have hspells : Spells '\'' ['\\', '\'', 'a', '"', '\\', '"', '\\', '\\']
      ['\'', 'a', '"', '"', '\\'] :=
    .escaped (.inr rfl) (.plain (by decide) (by decide) (.plain (by decide) (by decide)
      (.escaped (.inr rfl) (.escaped (.inl rfl) .nil))))
  have hopen : ¬Enclosed (trim [' ', '\'', '\\', '"', '\\', 'n']) := by decide
  have hunquote : unquote [' ', '\'', '\\', '"', '\\', 'n'] = ['\'', '"', '\\', 'n'] := by decide
  have hbefore : ∀ c ∈ ['\t'], isBlank c = true := List.forall_mem_singleton.2 (by decide)
  have hafter : ∀ c ∈ ['\n'], isBlank c = true := List.forall_mem_singleton.2 (by decide)
  exact ⟨hspells, unquote_literal.1 '\'' _ _ _ _ rfl hbefore hafter hspells, hopen,
    (unquote_literal.2 _ _ hopen).1 hunquote⟩

end ApiCatalog.Php
