import ApiCatalog.Php.Parser.Statement
import ApiCatalog.Proofs.Php.Lexer.Text
import ApiCatalog.Proofs.Php.Literal
import ApiCatalog.Proofs.Php.Parser.Basic

/-!
# Calls with quoted arguments

Literals in single quotes with commas between them, in one line, are read as the arguments of a
call, whatever the literals hold: brackets, commas, comment marks and closing tags inside them are
part of their tokens. So the tokens of such arguments can be written down, and the parser followed
over them, for any number of arguments.
-/

namespace ApiCatalog.Php

variable {rest : List Char}

/-! ## The tokens -/

/-- A token of the kind on the first line. -/
def Token.onFirst (kind : TokenKind) (text : String) (lead : List Trivia) : Token :=
  { lead, kind, text, line := 1 }

/-- An operator or bracket with nothing in front of it. -/
def Token.mark (s : String) : Token := .onFirst .symbol s []

/-- Text in single quotes. -/
def Token.literal (text : List Char) (lead : List Trivia) : Token :=
  .onFirst .quoted (.ofList text) lead

/-- A token that holds no line break does not leave its line. -/
theorem tokensOf_of_scanToken {opened : List OpenTemplate} {cs front text : List Char}
    {lead : List Trivia} {kind : TokenKind} (hlead : leadOf cs = (lead, front))
    (hscan : scanToken opened front = ⟨kind, text, opened, rest⟩) (hlast : kind.isLast = false)
    (hleadLine : ∀ t ∈ lead, '\n' ∉ t.text.toList) (hline : '\n' ∉ text) :
    tokensOf opened 1 cs = .onFirst kind (.ofList text) lead :: tokensOf opened 1 rest := by
  have hlexeme : lexemeOf opened cs = ⟨kind, text, opened, rest⟩ := by rw [lexemeOf, hlead, hscan]
  have hfeeds : Token.lineFeeds (String.join (lead.map Trivia.text)) = 0 := by
    refine List.count_eq_zero.2 fun hbreak => ?_
    rw [String.toList_join, List.flatMap_map] at hbreak
    obtain ⟨t, ht, htext⟩ := List.mem_flatMap.1 hbreak
    exact hleadLine t ht htext
  have hfirst : firstOf opened 1 cs = .onFirst kind (.ofList text) lead := by
    rw [firstOf, hlexeme, hlead, hfeeds]
    rfl
  have hlastLine : (Token.onFirst kind (.ofList text) lead).lastLine = 1 := by
    rw [Token.lastLine, Token.onFirst, Token.lineFeeds, String.toList_ofList,
      List.count_eq_zero.2 hline]
  rw [tokensOf_of_more (by rw [hlexeme]; exact hlast), hfirst, hlexeme, hlastLine]

/-- One blank in front of a token. -/
theorem leadOf_blank {c : Char} {cs : List Char} (hc : isSpace c = false)
    (h : scanTrivia (c :: cs) = none) : leadOf (' ' :: c :: cs) = ([.blank " "], c :: cs) := by
  have hblank : scanTrivia (' ' :: c :: cs) = some (.blank " ", c :: cs) := by
    have hspace : scanTrivia (' ' :: c :: cs) =
        some (.blank (.ofList (' ' :: (c :: cs).takeWhile isSpace)), (c :: cs).dropWhile isSpace) :=
      rfl
    rw [hspace, List.takeWhile_cons_of_neg (by simp [hc]), List.dropWhile_cons_of_neg (by simp [hc])]
  rw [leadOf_of_some hblank, leadOf_of_none h]

/-- A literal in single quotes in one line. -/
structure IsLiteral (text : List Char) : Prop where
  quoted : ∃ body, text = '\'' :: (body ++ ['\'']) ∧ StaysQuoted body
  one_line : '\n' ∉ text

namespace IsLiteral

variable {text : List Char}

theorem scanToken_append (h : IsLiteral text) (rest : List Char) :
    scanToken [] (text ++ rest) = ⟨.quoted, text, [], rest⟩ := by
  obtain ⟨body, rfl, hbody⟩ := h.quoted
  have happend : '\'' :: (body ++ ['\'']) ++ rest = '\'' :: (body ++ '\'' :: rest) := by simp
  rw [happend, scanToken, quotedLexeme, hbody rest]
  rfl

theorem scanTrivia_append (h : IsLiteral text) (rest : List Char) :
    scanTrivia (text ++ rest) = none := by
  obtain ⟨body, rfl, -⟩ := h.quoted
  rfl

theorem tokensOf_append (h : IsLiteral text) (rest : List Char) :
    tokensOf [] 1 (text ++ rest) = .literal text [] :: tokensOf [] 1 rest :=
  tokensOf_of_scanToken (leadOf_of_none (h.scanTrivia_append rest)) (h.scanToken_append rest) rfl
    nofun h.one_line

theorem tokensOf_blank_append (h : IsLiteral text) (rest : List Char) :
    tokensOf [] 1 (' ' :: (text ++ rest)) =
      .literal text [.blank " "] :: tokensOf [] 1 rest := by
  have hlead : leadOf (' ' :: (text ++ rest)) = ([.blank " "], text ++ rest) := by
    obtain ⟨body, rfl, -⟩ := h.quoted
    exact leadOf_blank rfl rfl
  exact tokensOf_of_scanToken hlead (h.scanToken_append rest) rfl (by decide) h.one_line

end IsLiteral

/-- Further arguments as they are written. -/
def moreArguments (literals : List (List Char)) : List Char :=
  literals.flatMap fun text => ',' :: ' ' :: text

/-- The tokens of further arguments. -/
def moreArgumentTokens (literals : List (List Char)) : List Token :=
  literals.flatMap fun text => [.mark ",", .literal text [.blank " "]]

theorem tokensOf_moreArguments {literals : List (List Char)}
    (h : ∀ text ∈ literals, IsLiteral text) (rest : List Char) :
    tokensOf [] 1 (moreArguments literals ++ rest) =
      moreArgumentTokens literals ++ tokensOf [] 1 rest := by
  induction literals with
  | nil => rfl
  | cons text literals ih =>
    have hcomma : ∀ cs, tokensOf [] 1 (',' :: ' ' :: cs) = .mark "," :: tokensOf [] 1 (' ' :: cs) :=
      fun cs => tokensOf_of_scanToken (leadOf_of_none rfl) rfl rfl nofun (by decide)
    have hcons : moreArguments (text :: literals) ++ rest =
        ',' :: ' ' :: (text ++ (moreArguments literals ++ rest)) := by simp [moreArguments]
    rw [hcons, hcomma, (h text List.mem_cons_self).tokensOf_blank_append,
      ih fun t ht => h t (List.mem_cons_of_mem _ ht)]
    rfl

/-! ## The parser -/

namespace Parser

open Seam

variable {tail : List Token}

/-- Literals up to the closing bracket, each an argument of its own. -/
theorem run_itemsFrom_literals (n : Nat) (tail : List Token) (literals : List (List Char)) :
    ∀ (fuel : Nat) (lead : List Trivia) (first : List Char) (taken line : Nat),
      literals.length < fuel → ∃ taken' line',
        (itemsFrom ")" (argument (rules (n + 1))) fuel).run
          { rest := .literal first lead :: (moreArgumentTokens literals ++ .mark ")" :: tail)
            taken, lastLine := line } =
          .ok ((first :: literals).map fun text => .text (.ofList text),
            { rest := .mark ")" :: tail, taken := taken', lastLine := line' }) := by
  -- On the arguments that follow the first; each takes its comma and one round of the loop.
  induction literals with
  | nil =>
    intro fuel lead first taken line hfuel
    obtain ⟨fuel, rfl⟩ := Nat.exists_eq_add_one.2 hfuel
    exact ⟨_, _, rfl⟩
  | cons next literals ih =>
    intro fuel lead first taken line hfuel
    obtain ⟨fuel, rfl⟩ := Nat.exists_eq_add_one.2 (Nat.zero_lt_of_lt hfuel)
    obtain ⟨taken', line', hrest⟩ := ih fuel [.blank " "] next (taken + 1 + 1)
      (1 + Token.lineFeeds ",") (Nat.lt_of_succ_lt_succ hfuel)
    refine ⟨taken', line', ?_⟩
    -- One round, computed: the literal and the comma are read, and the next literal stands in
    -- front.
    have hstep : (itemsFrom ")" (argument (rules (n + 1))) (fuel + 1)).run
        { rest := .literal first lead ::
            (moreArgumentTokens (next :: literals) ++ .mark ")" :: tail)
          taken, lastLine := line } =
        (itemsFrom ")" (argument (rules (n + 1))) fuel >>= fun items =>
          pure (.text (.ofList first) :: items)).run
          { rest := .literal next [.blank " "] ::
              (moreArgumentTokens literals ++ .mark ")" :: tail)
            taken := taken + 1 + 1, lastLine := 1 + Token.lineFeeds "," } := rfl
    rw [hstep, run_bind_eq_ok]
    exact ⟨_, _, hrest, rfl⟩

theorem run_arguments_literals (n : Nat) (tail : List Token) (first : List Char)
    (literals : List (List Char)) (taken line : Nat) : ∃ taken' line',
      (arguments (rules (n + 1))).run
        { rest := .mark "(" :: .literal first [] ::
            (moreArgumentTokens literals ++ .mark ")" :: tail)
          taken, lastLine := line } =
        .ok ((first :: literals).map fun text => .text (.ofList text),
          { rest := tail, taken := taken', lastLine := line' }) := by
  let inside : List Token :=
    .literal first [] :: (moreArgumentTokens literals ++ .mark ")" :: tail)
  -- The loop is given as many rounds as tokens are left, more than there are arguments.
  have hfuel : literals.length < inside.length := by
    simp [inside, moreArgumentTokens]
    omega
  obtain ⟨taken', line', hitems⟩ := run_itemsFrom_literals n tail literals inside.length [] first
    (taken + 1) (1 + Token.lineFeeds "(") hfuel
  have hstep : (arguments (rules (n + 1))).run
      { rest := .mark "(" :: inside, taken, lastLine := line } =
      (itemsFrom ")" (argument (rules (n + 1))) inside.length >>= fun items =>
        expect ")" >>= fun _ => pure items).run
        { rest := inside, taken := taken + 1, lastLine := 1 + Token.lineFeeds "(" } := rfl
  refine ⟨taken' + 1, 1 + Token.lineFeeds ")", ?_⟩
  rw [hstep, run_bind_eq_ok]
  exact ⟨_, _, hitems, rfl⟩

end Parser
end ApiCatalog.Php
