import ApiCatalog.Classmap
import ApiCatalog.Proofs.Php.Parser.Call
import ApiCatalog.Proofs.Text.Split

/-!
# Registered aliases come back

A file of registrations, written one to a line and mixed with lines that mention none, is scanned to
the aliases that were written (`scan_text`). The lines come apart again because no name holds a line
feed, each registration is known by what it starts with, and the parser sees five tokens and one
argument for every value, whatever characters the values are made of.
-/

namespace ApiCatalog.Classmap

open Php Text

/-! ## What a file of registrations holds -/

/-- A class name in a registration, which starts with no separator, and the number of backslashes
that are written in front of it. Any number of separators may stand there, each of them written as
two backslashes. A single backslash is read as a separator too, unless the name starts with a quote:
the quote is written behind a backslash itself and would lose it. -/
structure WrittenName where
  name : String
  marks : Nat := 0
  nonempty : name ≠ ""
  bare : name.toList.head? ≠ some '\\'
  one_line : '\n' ∉ name.toList
  closed : Even marks ∨ name.toList.head? ≠ some '\''

/-- The name in single quotes. -/
def WrittenName.literal (w : WrittenName) : List Char :=
  '\'' :: (List.replicate w.marks '\\' ++ escape '\'' w.name.toList ++ ['\''])

/-- What a registration starts with. -/
def callStart : List Char := "JLoader::registerAlias(".toList

/-- The line that registers with the values written so. -/
def callText (first : List Char) (more : List (List Char)) : List Char :=
  callStart ++ (first ++ (moreArguments more ++ [')', ';']))

/-- A registration: the old name, the new one, and perhaps the version that drops the alias. -/
structure Registration where
  oldName : WrittenName
  newName : WrittenName
  version? : Option String := none
  one_line : ∀ version ∈ version?, '\n' ∉ version.toList

namespace Registration

variable (r : Registration)

/-- The values behind the first one. -/
def more : List (List Char) :=
  r.newName.literal :: (r.version?.map fun version => quote '\'' version.toList).toList

/-- The line that registers the alias. -/
def text : List Char := callText r.oldName.literal r.more

/-- The alias. Without a version it is dropped in version 4.0. -/
def entry : AliasEntry :=
  { oldName := r.oldName.name, newName := r.newName.name, version := r.version?.getD "4.0" }

end Registration

/-- A line of a file of registrations. -/
inductive Line where
  | registration (r : Registration)
  | other (text : List Char) (one_line : '\n' ∉ text) (silent : ¬marker <:+: text.map Char.toLower)

/-- The line without its end. -/
def Line.text : Line → List Char
  | registration r => r.text
  | other text .. => text

/-- The alias that the line registers. -/
def Line.entry? : Line → Option AliasEntry
  | registration r => some r.entry
  | other .. => none

/-- The ends of lines. -/
inductive LineEnd where
  | feed
  | returnFeed
deriving DecidableEq, Repr

/-- The characters that end the line. -/
def LineEnd.text : LineEnd → List Char
  | feed => ['\n']
  | returnFeed => ['\r', '\n']

/-- A file: lines with their ends, and perhaps a line behind them that nothing ends. -/
structure Listing where
  ended : List (Line × LineEnd)
  last? : Option Line := none

/-- The text of the file. -/
def Listing.text (f : Listing) : List Char :=
  (f.ended.flatMap fun (line, lineEnd) => line.text ++ lineEnd.text) ++
    (f.last?.map Line.text).getD []

/-- The aliases that the file registers, in order of its lines. -/
def Listing.entries (f : Listing) : List AliasEntry :=
  (f.ended.map Prod.fst ++ f.last?.toList).filterMap Line.entry?

/-! ## The tokens of a registration -/

/-- The word in front of the `::`. -/
def scopeToken : Token := .onFirst .word "JLoader" [.blank " "]

/-- The word behind the `::`. -/
def methodToken : Token := .onFirst .word "registerAlias" []

/-- What stands behind the arguments. -/
def endTokens : List Token := [.mark ";", .onFirst .stop "" []]

/-- The tokens behind the opening bracket. -/
def insideTokens (first : List Char) (more : List (List Char)) : List Token :=
  .literal first [] :: (moreArgumentTokens more ++ .mark ")" :: endTokens)

/-- The tokens of the call, with `inside` behind its opening bracket. -/
def callTokens (inside : List Token) : List Token :=
  scopeToken :: .mark "::" :: methodToken :: .mark "(" :: inside

/-- The class is found in any case of its letters. -/
theorem keyword_scopeToken : scopeToken.keyword = "jloader" := by
  have hword : scopeToken.keyword = "JLoader".map Char.toLower := if_pos rfl
  rw [hword, ← String.toList_inj, String.toList_map]
  decide

/-- The tokens of a registration, one for each sign of it. -/
theorem tokenize_call {first : List Char} {more : List (List Char)} (hfirst : IsLiteral first)
    (hmore : ∀ text ∈ more, IsLiteral text) :
    tokenize ("<?php ".toList ++ callText first more) = callTokens (insideTokens first more) := by
  -- The fixed part of the line is scanned token by token; what follows stays a variable, so that no
  -- step looks past its own token.
  have hbegin : ∀ cs, tokenize ("<?php ".toList ++ (callStart ++ cs)) =
      tokensOf [] 1 (' ' :: (callStart ++ cs)) := fun _ => rfl
  have hscope : ∀ cs, tokensOf [] 1 (' ' :: (callStart ++ cs)) =
      scopeToken :: tokensOf [] 1 ("::registerAlias(".toList ++ cs) := fun _ =>
    tokensOf_of_scanToken (leadOf_blank rfl rfl) rfl rfl (by decide) (by decide)
  have hcolons : ∀ cs, tokensOf [] 1 ("::registerAlias(".toList ++ cs) =
      .mark "::" :: tokensOf [] 1 ("registerAlias(".toList ++ cs) := fun _ =>
    tokensOf_of_scanToken (leadOf_of_none rfl) rfl rfl nofun (by decide)
  have hmethod : ∀ cs, tokensOf [] 1 ("registerAlias(".toList ++ cs) =
      methodToken :: tokensOf [] 1 ('(' :: cs) := fun _ =>
    tokensOf_of_scanToken (leadOf_of_none rfl) rfl rfl nofun (by decide)
  have hopen : ∀ cs, tokensOf [] 1 ('(' :: (first ++ cs)) =
      .mark "(" :: tokensOf [] 1 (first ++ cs) := by
    obtain ⟨body, rfl, -⟩ := hfirst.quoted
    exact fun _ => tokensOf_of_scanToken (leadOf_of_none rfl) rfl rfl nofun (by decide)
  have hend : tokensOf [] 1 [')', ';'] = .mark ")" :: endTokens := rfl
  -- Everything up to the first argument is rewritten away, then the two literals, then the end.
  rw [callText, hbegin, hscope, hcolons, hmethod, hopen, hfirst.tokensOf_append,
    tokensOf_moreArguments hmore, hend]
  rfl

/-! ## The parser on a registration -/

section Parser

open Parser Seam

variable {inside tail : List Token} {values : List Expr} {taken line : Nat}

/-- The call with these arguments. -/
def callOf (values : List Expr) : Expr := .staticCall "JLoader" "registerAlias" values

/-- The parser in front of the call. -/
def atScope (inside : List Token) : ParserState := { rest := callTokens inside }

/-- The parser in front of the `::`. -/
def atColons (inside : List Token) : ParserState :=
  { rest := (callTokens inside).drop 1, taken := 1, lastLine := scopeToken.lastLine }

/-- The parser in front of the opening bracket. -/
def atBracket (inside : List Token) : ParserState :=
  { rest := (callTokens inside).drop 3, taken := 3, lastLine := methodToken.lastLine }

/-- The parser in front of the semicolon. -/
def atSemicolon (taken line : Nat) (tail : List Token) : ParserState :=
  { rest := .mark ";" :: tail, taken, lastLine := line }

/-- The class comes first. -/
theorem keyword_ahead_atScope (inside : List Token) :
    (ahead 0 (atScope inside)).keyword = "jloader" := keyword_scopeToken

theorem run_wordAtom (r : Rules) (inside : List Token) :
    (wordAtom r).run (atScope inside) = .ok (.name "JLoader", atColons inside) := by
  have hpeek : ∀ f : Token → Parser Expr,
      (peekAt 1 >>= f).run (atScope inside) = (f (.mark "::")).run (atScope inside) := fun _ => rfl
  rw [wordAtom, hpeek, run_peek_bind, keyword_ahead_atScope]
  rfl

/-- The call on it is read with its arguments, and the semicolon stops it. -/
theorem run_suffixes (r : Rules) (fuel : Nat)
    (h : (arguments r).run (atBracket inside) = .ok (values, atSemicolon taken line tail)) :
    (suffixes r (atScope inside) (fuel + 2) (.name "JLoader")).run (atColons inside) =
      .ok (callOf values, atSemicolon taken line tail) := by
  let atMethod : ParserState :=
    { rest := (callTokens inside).drop 2, taken := 2, lastLine := 1 + Token.lineFeeds "::" }
  -- The tokens in the brackets are not known, so each step is computed on those before them alone.
  have hscope : textOfTokens ((callTokens inside).take 1) = "JLoader" := rfl
  have hcolons : (suffixes r (atScope inside) (fuel + 2) (.name "JLoader")).run (atColons inside) =
      (scopedSuffix r (textOfTokens ((callTokens inside).take 1)) >>=
        suffixes r (atScope inside) (fuel + 1)).run atMethod := rfl
  have hmethod : (scopedSuffix r "JLoader").run atMethod =
      (arguments r >>= fun values => pure (callOf values)).run (atBracket inside) := rfl
  rw [hcolons, hscope, run_bind_eq_ok]
  refine ⟨callOf values, atSemicolon taken line tail, ?_, rfl⟩
  rw [hmethod, run_bind_eq_ok]
  exact ⟨_, _, h, rfl⟩

theorem run_operand (r : Rules) (fuel : Nat)
    (h : (arguments r).run (atBracket inside) = .ok (values, atSemicolon taken line tail)) :
    (operand r (fuel + 1)).run (atScope inside) =
      .ok ((false, callOf values), atSemicolon taken line tail) := by
  have hatom : (operand r (fuel + 1)).run (atScope inside) =
      (atom r >>= fun e => get >>= fun s =>
        suffixes r (atScope inside) s.rest.length e >>= fun e => pure (false, e)).run
        (atScope inside) := by
    rw [operand, run_peek_bind, keyword_ahead_atScope]
    rfl
  rw [hatom, run_bind_eq_ok]
  refine ⟨_, _, run_wordAtom r inside, ?_⟩
  rw [run_get_bind, run_bind_eq_ok]
  exact ⟨_, _, run_suffixes r _ h, rfl⟩

theorem run_expression (r : Rules)
    (h : (arguments r).run (atBracket inside) = .ok (values, atSemicolon taken line tail)) :
    (expression r).run (atScope inside) =
      .ok (callOf values, atSemicolon taken line tail) := by
  rw [expression, run_get_bind, run_bind_eq_ok]
  exact ⟨_, _, run_operand r _ h, rfl⟩

theorem run_statement {r r' : Rules} (hr : r.expr = expression r')
    (h : (arguments r').run (atBracket inside) = .ok (values, atSemicolon taken line tail)) :
    (statement r).run (atScope inside) =
      .ok (.mk [.blank " "] 1 (.expression (callOf values)),
        { rest := tail, taken := taken + 1, lastLine := 1 + Token.lineFeeds ";" }) := by
  have hkind : (stmtKind r).run (atScope inside) = (expressionStmt r).run (atScope inside) := by
    have hword : (stmtKind r).run (atScope inside) =
        (keywordStmt r scopeToken.keyword).run (atScope inside) := rfl
    rw [hword, keyword_scopeToken]
    rfl
  rw [statement, run_peek_bind, run_bind_eq_ok]
  refine ⟨.expression (callOf values), _, ?_, rfl⟩
  rw [hkind, expressionStmt, hr, run_bind_eq_ok]
  exact ⟨_, _, run_expression r' h, rfl⟩

/-- The file with the call alone in it. -/
def callFile (values : List Expr) : SourceFile :=
  { statements := [.mk [.blank " "] 1 (.expression (callOf values))], tail := [] }

/-- The registration is the only statement of its file. -/
theorem run_sourceFile {n : Nat} (h : (arguments (rules (n + 1))).run (atBracket inside) =
    .ok (values, atSemicolon taken line [.onFirst .stop "" []])) :
    ∃ s, (sourceFile (rules (n + 3))).run (atScope inside) = .ok (callFile values, s) := by
  let r := rules (n + 3)
  let atStop : ParserState :=
    { rest := [.onFirst .stop "" []], taken := taken + 1, lastLine := 1 + Token.lineFeeds ";" }
  have hround : (manyUntil (fun t => t.kind == .stop) r.stmt).run (atScope inside) =
      (r.stmt >>= fun first =>
        manyFrom (fun t => t.kind == .stop) r.stmt (inside.length + 3) >>= fun more =>
          pure (first :: more)).run (atScope inside) := rfl
  refine ⟨atStop, ?_⟩
  rw [sourceFile, run_bind_eq_ok]
  refine ⟨(callFile values).statements, atStop, ?_, rfl⟩
  rw [hround, run_bind_eq_ok]
  exact ⟨_, _, run_statement rfl h, rfl⟩

/-- A registration is parsed to the call with its values as they are written. -/
theorem parse_call {first : List Char} {more : List (List Char)} (hfirst : IsLiteral first)
    (hmore : ∀ text ∈ more, IsLiteral text) :
    parse ("<?php ".toList ++ callText first more) =
      .ok (callFile ((first :: more).map fun text => .text (.ofList text))) := by
  let tokens := callTokens (insideTokens first more)
  -- A statement, its expression and an argument of it take three levels of the grammar.
  obtain ⟨n, hn⟩ : ∃ n, tokens.length + 1 = n + 3 :=
    ⟨tokens.length - 2, by simp [tokens, callTokens]⟩
  obtain ⟨taken, line, harguments⟩ :=
    run_arguments_literals n endTokens first more 3 methodToken.lastLine
  obtain ⟨s, hs⟩ := run_sourceFile harguments
  have hrun : (sourceFile (rules (tokens.length + 1))).run { rest := tokens } =
      .ok (callFile ((first :: more).map fun text => .text (.ofList text)), s) := by
    rw [hn]
    exact hs
  rw [parse, tokenize_call hfirst hmore]
  dsimp only
  rw [hrun]
  rfl

end Parser

/-! ## One line -/

/-- A text on one line is a literal between its quotes. -/
theorem isLiteral_quote {text : List Char} (h : '\n' ∉ text) : IsLiteral (quote '\'' text) := by
  refine ⟨⟨escape '\'' text, rfl, .escape text⟩, fun hmem => ?_⟩
  have hescape : '\n' ∈ escape '\'' text := by simpa [quote] using hmem
  exact (eq_or_mem_of_mem_escape hescape).elim (by decide) h

namespace WrittenName

variable (w : WrittenName)

/-- A name begins with a character that its quotes leave as it is. -/
theorem exists_toList_eq : ∃ c cs, w.name.toList = c :: cs ∧ c ≠ '\\' ∧
    (Even w.marks ∨ c ≠ '\'') := by
  obtain ⟨c, cs, hname⟩ := List.exists_cons_of_ne_nil (l := w.name.toList) (by simp [w.nonempty])
  have hbare := w.bare
  have hclosed := w.closed
  simp only [hname, List.head?_cons, ne_eq, Option.some.injEq] at hbare hclosed
  exact ⟨c, cs, hname, hbare, hclosed⟩

/-- A written name is a literal. -/
theorem isLiteral : IsLiteral w.literal := by
  obtain ⟨c, cs, hname, hbare, hclosed⟩ := w.exists_toList_eq
  refine ⟨⟨_, rfl, hname ▸ .replicate_append hbare cs hclosed⟩, fun hmem => ?_⟩
  have hescape : '\n' ∈ escape '\'' w.name.toList := by
    simpa [literal, List.mem_replicate] using hmem
  exact (eq_or_mem_of_mem_escape hescape).elim (by decide) w.one_line

/-- Read back without the separators in front of it, the name is as it was. -/
theorem absoluteName_literal : absoluteName (.ofList (unquote w.literal)) = w.name := by
  obtain ⟨c, cs, hname, hbare, hclosed⟩ := w.exists_toList_eq
  rw [absoluteName, String.toList_ofList, literal, unquote_quoted rfl, hname,
    dropLeading_unescape rfl hbare cs hclosed, ← hname, String.ofList_toList]

end WrittenName

/-- All literals are read, without their quotes. -/
theorem mapM_literal? (texts : List (List Char)) :
    (texts.map fun text => Expr.text (.ofList text)).mapM literal? =
      some (texts.map fun text => .ofList (unquote text)) := by
  induction texts with
  | nil => rfl
  | cons text texts ih =>
    rw [List.map_cons, List.mapM_cons, ih, literal?, String.toList_ofList]
    rfl

namespace Registration

variable (r : Registration)

/-- What follows the first name are literals. -/
theorem isLiteral_of_mem_more : ∀ text ∈ r.more, IsLiteral text := by
  intro text htext
  rcases List.mem_cons.1 htext with rfl | htext
  · exact r.newName.isLiteral
  · obtain ⟨version, hversion, rfl⟩ := Option.map_eq_some_iff.1 (Option.mem_toList.1 htext)
    exact isLiteral_quote (r.one_line version hversion)

/-- The values of the registration name its alias. -/
theorem ofValues?_literals : ofValues?
    ((r.oldName.literal :: r.more).map fun text => .ofList (unquote text)) = some r.entry := by
  have hold := r.oldName.absoluteName_literal
  have hnew := r.newName.absoluteName_literal
  cases hversion : r.version? with
  | none =>
    simp only [more, hversion, Option.map_none, Option.toList_none, List.map_cons, List.map_nil,
      ofValues?, hold, hnew]
    simp [entry, hversion, defaultVersion]
  | some version =>
    simp only [more, hversion, Option.map_some, Option.toList_some, List.map_cons, List.map_nil,
      ofValues?, hold, hnew, unquote_quote (q := '\'') rfl, String.ofList_toList]
    simp [entry, hversion]

/-- A registration is read as the alias it was written from. -/
theorem ofLine?_text : ofLine? r.text = some r.entry := by
  have hexpr : ofExpr? (callOf ((r.oldName.literal :: r.more).map fun text =>
      .text (.ofList text))) = some r.entry := by
    rw [callOf, ofExpr?, if_pos (by decide), mapM_literal?, Option.bind_some, r.ofValues?_literals]
  have hnamed : (r.entry.oldName != "" && r.entry.newName != "") = true := by
    simp [entry, r.oldName.nonempty, r.newName.nonempty]
  have hfirst : ∀ values, firstExpr? (callFile values).items = some (callOf values) := fun _ => rfl
  rw [ofLine?, text, parse_call r.oldName.isLiteral r.isLiteral_of_mem_more]
  dsimp only
  rw [hfirst, Option.bind_some, hexpr, Option.filter_some, if_pos hnamed]

/-- A registration mentions the call. -/
theorem mentionsMarker_text : mentionsMarker r.text = true := by
  have hstart : "JLoader::registerAlias".toList <+: callStart := by decide
  have hcall : "JLoader::registerAlias".toList <+: r.text := hstart.trans (List.prefix_append _ _)
  have hlower : "JLoader::registerAlias".toList.map Char.toLower = marker := by decide
  rw [mentionsMarker, occursIn_iff, ← hlower]
  exact (hcall.map Char.toLower).isInfix

/-- It stands on one line. -/
theorem one_line_text : '\n' ∉ r.text := by
  have hmore : '\n' ∉ moreArguments r.more := fun hmem => by
    obtain ⟨text, htext, hmem⟩ := List.mem_flatMap.1 hmem
    have hline := (r.isLiteral_of_mem_more text htext).one_line
    simp [hline] at hmem
  have hcall : '\n' ∉ callStart := by decide
  simp only [text, callText, List.mem_append, not_or]
  exact ⟨hcall, r.oldName.isLiteral.one_line, hmore, by decide⟩

/-- Its line ends with the semicolon. -/
theorem dropReturn_text : dropReturn r.text = r.text := by
  have hlast : r.text.getLast? = some ';' := by simp [text, callText, List.getLast?_append]
  exact dropReturn_of_getLast?_ne (by simp [hlast])

end Registration

/-! ## The file -/

/-- The alias that a line of a file is scanned to. -/
def scanLine? (line : List Char) : Option AliasEntry :=
  if mentionsMarker line then ofLine? line else none

/-- Lines are scanned one by one. -/
theorem scan_eq (source : List Char) : scan source = (lines source).filterMap scanLine? :=
  List.filterMap_filter

/-- A line that does not mention the call registers nothing. -/
theorem scanLine?_of_not_infix {line : List Char} (h : ¬marker <:+: line.map Char.toLower) :
    scanLine? line = none := by
  rw [scanLine?, mentionsMarker, if_neg (mt occursIn_iff.1 h)]

namespace Line

variable (line : Line)

/-- Every line of a listing is one line. -/
theorem one_line_text : '\n' ∉ line.text := by
  cases line with
  | registration r => exact r.one_line_text
  | other text one_line _ => exact one_line

/-- It gives its entry, if it has one. -/
theorem scanLine?_text : scanLine? line.text = line.entry? := by
  cases line with
  | registration r =>
    rw [text, scanLine?, if_pos r.mentionsMarker_text, r.ofLine?_text]
    rfl
  | other text _ silent => exact scanLine?_of_not_infix silent

/-- A carriage return that the line may end with makes no difference. -/
theorem scanLine?_dropReturn_text : scanLine? (dropReturn line.text) = line.entry? := by
  cases line with
  | registration r =>
    have hscan := scanLine?_text (.registration r)
    rwa [text, ← r.dropReturn_text] at hscan
  | other text _ silent =>
    have hprefix := (dropReturn_isPrefix text).map Char.toLower
    exact scanLine?_of_not_infix fun h => silent (h.trans hprefix.isInfix)

end Line

/-- A line with its end in front of others is scanned to what it registers. -/
theorem scan_ended (line : Line) (lineEnd : LineEnd) (rest : List Char) :
    scan (line.text ++ lineEnd.text ++ rest) = line.entry?.toList ++ scan rest := by
  have hcut : ∀ front, '\n' ∉ front → scanLine? (dropReturn front) = line.entry? →
      scan (front ++ '\n' :: rest) = line.entry?.toList ++ scan rest := by
    intro front hfront hscan
    rw [scan_eq, scan_eq, lines_append_newline hfront, List.filterMap_cons, hscan]
    cases line.entry? <;> rfl
  cases lineEnd with
  | feed => simpa [LineEnd.text] using hcut _ line.one_line_text line.scanLine?_dropReturn_text
  | returnFeed =>
    -- The carriage return of the line end is dropped, and one of the line itself is kept.
    have hscan : scanLine? (dropReturn (line.text ++ ['\r'])) = line.entry? := by
      rw [dropReturn_append_return, line.scanLine?_text]
    simpa [LineEnd.text] using hcut _ (by simp [line.one_line_text]) hscan

/-- Many lines give their entries in order. -/
theorem scan_flatMap_ended (ended : List (Line × LineEnd)) (rest : List Char) :
    scan ((ended.flatMap fun (line, lineEnd) => line.text ++ lineEnd.text) ++ rest) =
      (ended.map Prod.fst).filterMap Line.entry? ++ scan rest := by
  induction ended with
  | nil => rfl
  | cons first ended ih =>
    obtain ⟨line, lineEnd⟩ := first
    rw [List.flatMap_cons, List.append_assoc, scan_ended, ih, List.map_cons, List.filterMap_cons]
    cases line.entry? <;> rfl

/-- A line at the end that nothing ends is scanned to what it registers. -/
theorem scan_line (line : Line) : scan line.text = line.entry?.toList := by
  have hscan := line.scanLine?_text
  rw [scan_eq, lines_of_not_mem line.one_line_text]
  -- Nothing at the end of a file is no line, but an empty one registers nothing either.
  by_cases hempty : line.text = []
  · rw [← hscan, hempty]
    rfl
  · rw [if_neg (by simpa using hempty), List.filterMap_cons, hscan]
    cases line.entry? <;> rfl

/-- The aliases written in a file are the aliases that it is scanned to, in order. -/
theorem scan_text (f : Listing) : scan f.text = f.entries := by
  rw [Listing.text, scan_flatMap_ended, Listing.entries, List.filterMap_append]
  congr 1
  cases f.last? with
  | none => rfl
  | some line =>
    rw [Option.map_some, Option.getD_some, scan_line, Option.toList_some, List.filterMap_cons]
    cases line.entry? <;> rfl

example : scan "JLoader::registerAlias('\\\\A', 'b\\'s, ?>//');\r\n# jloader\n".toList =
    [⟨"A", "b's, ?>//", "4.0"⟩] := by decide +kernel

end ApiCatalog.Classmap
