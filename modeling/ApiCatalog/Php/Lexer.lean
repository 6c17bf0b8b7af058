import ApiCatalog.Php.Token

/-!
# From source text to tokens

Text in front of the first opening tag is skipped, and so is markup between a closing and the
next opening tag. Text with expressions in it is cut into parts: the brace that ends an
expression returns to the text around it, so the texts that are open form a stack. Text that
starts no token ends the tokens with a broken one.
-/

namespace ApiCatalog.Php

/-! ## Characters -/

/-- White space between tokens. -/
def isSpace (c : Char) : Bool :=
  c == ' ' || ('\t' ≤ c && c ≤ '\r') || c == '\u00a0' || c == '\u200b' || c == '\u2060' ||
    c == '\ufeff'

/-- A character that may start a name: a letter of ASCII, or any character of the basic plane
beyond ASCII that is no white space. -/
def isNameStart (c : Char) : Bool :=
  c.isAlpha || c == '_' || (0x80 ≤ c.toNat && c.toNat ≤ 0xFFFF && !isSpace c)

/-- A character that may stand inside a name. -/
def isNamePart (c : Char) : Bool := isNameStart c || c.isDigit

/-! ## Between tokens -/

/-- The text behind an opening tag, if the text starts with one. -/
def afterOpeningTag? : List Char → Option (List Char × List Char)
  | '<' :: '?' :: '=' :: rest => some (['<', '?', '='], rest)
  | '<' :: '?' :: p :: h :: q :: rest =>
    if [p, h, q].map Char.toLower == ['p', 'h', 'p'] then some (['<', '?', p, h, q], rest)
    else some (['<', '?'], p :: h :: q :: rest)
  | '<' :: '?' :: rest => some (['<', '?'], rest)
  | _ => none

/-- Markup up to the end of the next opening tag, or to the end of the source. -/
def scanMarkup : List Char → List Char × List Char
  | [] => ([], [])
  | c :: rest =>
    match afterOpeningTag? (c :: rest) with
    | some split => split
    | none =>
      let (taken, rest) := scanMarkup rest
      (c :: taken, rest)

/-- A comment to the end of its line, or to a closing tag. -/
def scanLineComment : List Char → List Char × List Char
  | [] => ([], [])
  | c :: rest =>
    if c == '\n' || c == '\r' || (c == '?' && rest.head? == some '>') then ([], c :: rest)
    else
      let (taken, rest) := scanLineComment rest
      (c :: taken, rest)

/-- A comment behind its `/*`; none if it does not end. -/
def scanBlockComment : List Char → Option (List Char × List Char)
  | [] => none
  | '*' :: '/' :: rest => some (['*', '/'], rest)
  | c :: rest => (scanBlockComment rest).map fun (taken, rest) => (c :: taken, rest)

/-- The stretch at the start of the text that is no token, if there is one. -/
def scanTrivia : List Char → Option (Trivia × List Char)
  | [] => none
  | '/' :: '*' :: rest =>
    (scanBlockComment rest).map fun (taken, rest) => (.comment (.ofList ('/' :: '*' :: taken)), rest)
  | '/' :: '/' :: rest =>
    let (taken, rest) := scanLineComment rest
    some (.comment (.ofList ('/' :: '/' :: taken)), rest)
  | '?' :: '>' :: rest =>
    let (taken, rest) := scanMarkup rest
    some (.markup (.ofList ('?' :: '>' :: taken)), rest)
  | c :: rest =>
    if isSpace c then
      some (.blank (.ofList (c :: rest.takeWhile isSpace)), rest.dropWhile isSpace)
    else if c == '#' && rest.head? != some '[' then
      let (taken, rest) := scanLineComment rest
      some (.comment (.ofList ('#' :: taken)), rest)
    else none

/-- All that stands in front of the next token. -/
def scanLead : Nat → List Char → List Trivia × List Char
  | 0, cs => ([], cs)
  | fuel + 1, cs =>
    match scanTrivia cs with
    | none => ([], cs)
    | some (trivia, rest) =>
      let (lead, rest) := scanLead fuel rest
      (trivia :: lead, rest)

/-! ## Numbers -/

/-- Digits at the start of the text, and marks between them. -/
def scanDigits (digit : Char → Bool) : List Char → List Char × List Char
  | [] => ([], [])
  | c :: rest =>
    if digit c || (c == '_' && rest.head?.any digit) then
      let (taken, rest) := scanDigits digit rest
      (c :: taken, rest)
    else ([], c :: rest)

/-- The fraction at the start of the text, empty if there is none. -/
def scanFraction : List Char → List Char × List Char
  | '.' :: rest =>
    let (digits, rest) := scanDigits Char.isDigit rest
    ('.' :: digits, rest)
  | cs => ([], cs)

/-- The letter and sign of the exponent at the start of the text, empty if none starts there. -/
def exponentMark : List Char → List Char
  | e :: sign :: rest =>
    if e.toLower != 'e' then []
    else if sign.isDigit then [e]
    else if (sign == '+' || sign == '-') && rest.head?.any Char.isDigit then [e, sign]
    else []
  | _ => []

/-- The exponent at the start of the text, empty if there is none. -/
def scanExponent (cs : List Char) : List Char × List Char :=
  match exponentMark cs with
  | [] => ([], cs)
  | mark =>
    let (digits, rest) := scanDigits Char.isDigit (cs.drop mark.length)
    (mark ++ digits, rest)

/-- The digits of the base that a letter behind a zero names. -/
def baseDigit? (letter : Char) : Option (Char → Bool) :=
  match letter.toLower with
  | 'x' => some fun c => c.isDigit || ('a' ≤ c.toLower && c.toLower ≤ 'f')
  | 'b' => some fun c => c == '0' || c == '1'
  | _ => none

/-- A digit of base eight. -/
def isOctalDigit (c : Char) : Bool := '0' ≤ c && c ≤ '7'

/-- A number that starts with a zero and has neither fraction nor exponent: it is of another base
than ten. -/
def scanZero : List Char → List Char × List Char
  | '0' :: b :: rest =>
    match baseDigit? b with
    | some digit =>
      if rest.head?.any digit then
        let (digits, rest) := scanDigits digit rest
        ('0' :: b :: digits, rest)
      else (['0'], b :: rest)
    | none =>
      let (letter, rest) := if b.toLower == 'o' then ([b], rest) else ([], b :: rest)
      let (digits, rest) := scanDigits isOctalDigit rest
      ('0' :: letter ++ digits, rest)
  | cs => (cs.take 1, cs.drop 1)

/-- A number. -/
def scanNumber (cs : List Char) : List Char × List Char :=
  let (whole, rest) := scanDigits Char.isDigit cs
  let (fraction, rest) := scanFraction rest
  let (exponent, rest) := scanExponent rest
  if fraction.isEmpty && exponent.isEmpty && whole.head? == some '0' then scanZero cs
  else (whole ++ fraction ++ exponent, rest)

/-! ## Text -/

/-- Text in single quotes behind its opening quote; none if it does not end. -/
def scanQuoted : List Char → Option (List Char × List Char)
  | [] => none
  | '\\' :: c :: rest => (scanQuoted rest).map fun (taken, rest) => ('\\' :: c :: taken, rest)
  | '\'' :: rest => some (['\''], rest)
  | c :: rest => (scanQuoted rest).map fun (taken, rest) => (c :: taken, rest)

/-- White space inside a line that a heredoc starts or ends on. -/
def isGap (c : Char) : Bool := c == ' ' || c == '\t'

/-- The indentation and the label at the start of a line, if they end a heredoc. -/
def labelAt? (label : String) (cs : List Char) : Option (List Char × List Char) :=
  let indent := cs.takeWhile isGap
  let rest := cs.dropWhile isGap
  let word := label.toList
  let after := rest.drop word.length
  if word.isPrefixOf rest && !after.head?.any isNamePart then some (indent ++ word, after)
  else none

/-- The line break, indentation and label that end a heredoc, if the text starts with them. -/
def heredocEnd? (label : String) : List Char → Option (List Char × List Char)
  | '\n' :: rest => (labelAt? label rest).map fun (taken, rest) => ('\n' :: taken, rest)
  | '\r' :: '\n' :: rest =>
    (labelAt? label rest).map fun (taken, rest) => ('\r' :: '\n' :: taken, rest)
  | _ => none

/-- The end of a text with expressions, if the text in front is at it. -/
def templateEnd? (quote : Quote) (cs : List Char) : Option (List Char × List Char) :=
  match quote, cs with
  | .double, '"' :: rest => some (['"'], rest)
  | .backtick, '\x60' :: rest => some (['\x60'], rest)
  | .heredoc label, cs => heredocEnd? label cs
  | _, _ => none

/-- A part of a text with expressions: its characters, whether an expression follows, and the
rest. None if the text does not end. -/
def scanTemplate (quote : Quote) : List Char → Option (List Char × Bool × List Char)
  | [] => none
  | c :: rest =>
    match templateEnd? quote (c :: rest) with
    | some (ending, rest) => some (ending, false, rest)
    | none =>
      if c == '\x7b' && rest.head? == some '$' then some ([c], true, rest)
      else
        match c, rest with
        | '$', '\x7b' :: rest => some (['$', '\x7b'], true, rest)
        | '\\', d :: rest =>
          if d == '\n' || d == '\r' then
            (scanTemplate quote (d :: rest)).map fun (taken, hole, rest) => (c :: taken, hole, rest)
          else
            (scanTemplate quote rest).map fun (taken, hole, rest) => (c :: d :: taken, hole, rest)
        | c, rest =>
          (scanTemplate quote rest).map fun (taken, hole, rest) => (c :: taken, hole, rest)

/-- The body of a heredoc without expressions; none if it does not end. -/
def scanNowdoc (label : String) : List Char → Option (List Char × List Char)
  | [] => none
  | c :: rest =>
    match heredocEnd? label (c :: rest) with
    | some split => some split
    | none => (scanNowdoc label rest).map fun (taken, rest) => (c :: taken, rest)

/-- The quote in front of the label of a heredoc, if one stands there. -/
def labelMark : List Char → List Char
  | '\'' :: _ => ['\'']
  | '"' :: _ => ['"']
  | _ => []

/-- The opening of a heredoc behind its `<<<`: the characters up to the line break, the label,
and whether the label is in single quotes. -/
def scanHeredocStart (cs : List Char) : Option (List Char × String × Bool × List Char) :=
  let gap := cs.takeWhile isGap
  let start := cs.dropWhile isGap
  let mark := labelMark start
  let label := (start.drop mark.length).takeWhile isNamePart
  let after := (start.drop mark.length).dropWhile isNamePart
  let rest := after.drop mark.length
  let breaks := rest.head? == some '\n' || rest.take 2 == ['\r', '\n']
  if !label.isEmpty && mark.isPrefixOf after && breaks then
    some (gap ++ mark ++ label ++ mark, .ofList label, mark == ['\''], rest)
  else none

/-! ## Symbols -/

/-- Operators and brackets, each in front of those it starts with. -/
def symbols : List String := [
  "<=>", "**=", "...", "<<=", ">>=", "===", "!==", "??=", "?->", "::", "->", "=>", "++", "--",
  "+=", "-=", "*=", "/=", ".=", "%=", "&=", "|=", "^=", "&&", "||", "??", "**", "<<", ">>", "==",
  "!=", "<>", "<=", ">=", "#[", "+", "-", "*", "/", "%", ".", "=", "<", ">", "!", "~", "&", "|",
  "^", "?", ":", ";", ",", "(", ")", "[", "]", "\x7b", "\x7d", "@", "$", "\\"]

/-- The operator or bracket at the start of the text. -/
def scanSymbol? (cs : List Char) : Option (String × List Char) :=
  (symbols.find? fun s => s.toList.isPrefixOf cs).map fun s => (s, cs.drop s.length)

/-! ## Tokens -/

/-- A text with expressions that is open, and how many braces are open in its expression. -/
structure OpenTemplate where
  quote : Quote
  braces : Nat := 0

/-- A token without what stands in front of it, the texts open behind it, and the rest. -/
structure Lexeme where
  kind : TokenKind
  text : List Char
  opened : List OpenTemplate
  rest : List Char

/-- A part of a text with expressions: `whole` if the text ends with it, and `partly` if an
expression follows. -/
def templateLexeme (quote : Quote) (whole partly : TokenKind) (start : List Char)
    (opened : List OpenTemplate) (cs : List Char) : Lexeme :=
  match scanTemplate quote cs with
  | some (taken, true, rest) => ⟨partly, start ++ taken, ⟨quote, 0⟩ :: opened, rest⟩
  | some (taken, false, rest) => ⟨whole, start ++ taken, opened, rest⟩
  | none => ⟨.broken, start, opened, cs⟩

/-- A text in single quotes; `start` ends with the opening quote. -/
def quotedLexeme (start : List Char) (opened : List OpenTemplate) (cs : List Char) : Lexeme :=
  match scanQuoted cs with
  | some (taken, rest) => ⟨.quoted, start ++ taken, opened, rest⟩
  | none => ⟨.broken, start, opened, cs⟩

/-- A heredoc behind its opening; `start` is what the opening is spelled with. -/
def heredocToken (start : List Char) (label : String) (bare : Bool) (opened : List OpenTemplate)
    (cs : List Char) : Lexeme :=
  if bare then
    match scanNowdoc label cs with
    | some (taken, rest) => ⟨.nowdoc, start ++ taken, opened, rest⟩
    | none => ⟨.broken, start, opened, cs⟩
  else
    let quote := Quote.heredoc label
    templateLexeme quote (.template quote) (.templateHead quote) start opened cs

/-- The heredoc behind `<<<`, if there is one. -/
def heredocLexeme? (opened : List OpenTemplate) (cs : List Char) : Option Lexeme :=
  (scanHeredocStart cs).map fun (start, label, bare, rest) =>
    heredocToken ('<' :: '<' :: '<' :: start) label bare opened rest

/-- The operator or bracket as a token; a closing brace may return to an open text. -/
def symbolToken (opened : List OpenTemplate) (s : String) (rest : List Char) : Lexeme :=
  match s, opened with
  | "\x7d", ⟨quote, 0⟩ :: opened =>
    templateLexeme quote .templateTail .templateMiddle ['\x7d'] opened rest
  | "\x7d", ⟨quote, n + 1⟩ :: opened => ⟨.symbol, s.toList, ⟨quote, n⟩ :: opened, rest⟩
  | "\x7b", ⟨quote, n⟩ :: opened => ⟨.symbol, s.toList, ⟨quote, n + 1⟩ :: opened, rest⟩
  | _, opened => ⟨.symbol, s.toList, opened, rest⟩

/-- The operator or bracket at the start of the text. -/
def symbolLexeme (opened : List OpenTemplate) (cs : List Char) : Lexeme :=
  match scanSymbol? cs with
  | none => ⟨.broken, cs.take 1, opened, cs.drop 1⟩
  | some (s, rest) => symbolToken opened s rest

/-- The token at the start of a text that is not empty. -/
def scanToken (opened : List OpenTemplate) : List Char → Lexeme
  | '\'' :: rest => quotedLexeme ['\''] opened rest
  | '"' :: rest => templateLexeme .double (.template .double) (.templateHead .double) ['"'] opened rest
  | '\x60' :: rest =>
    templateLexeme .backtick (.template .backtick) (.templateHead .backtick) ['\x60'] opened rest
  | '<' :: '<' :: '<' :: rest =>
    (heredocLexeme? opened rest).getD (symbolLexeme opened ('<' :: '<' :: '<' :: rest))
  | c :: d :: rest =>
    if (c == 'b' || c == 'B') && d == '\'' then quotedLexeme [c, d] opened rest
    else if (c == 'b' || c == 'B') && d == '"' then
      templateLexeme .double (.template .double) (.templateHead .double) [c, d] opened rest
    else if c == '$' && isNameStart d then
      ⟨.variable, c :: d :: rest.takeWhile isNamePart, opened, rest.dropWhile isNamePart⟩
    else if isNameStart c then
      ⟨.word, c :: (d :: rest).takeWhile isNamePart, opened, (d :: rest).dropWhile isNamePart⟩
    else if c.isDigit || (c == '.' && d.isDigit) then
      let (taken, rest) := scanNumber (c :: d :: rest)
      ⟨.number, taken, opened, rest⟩
    else symbolLexeme opened (c :: d :: rest)
  | [c] =>
    if isNameStart c then ⟨.word, [c], opened, []⟩
    else if c.isDigit then ⟨.number, [c], opened, []⟩
    else symbolLexeme opened [c]
  | [] => ⟨.stop, [], opened, []⟩

/-- The tokens of text inside PHP tags, the last one the end of the source or a broken one. -/
def tokensFrom : Nat → List OpenTemplate → Nat → List Char → List Token
  | 0, _, line, _ => [{ kind := .broken, text := "", line }]
  | fuel + 1, opened, line, cs =>
    let (lead, rest) := scanLead (fuel + 1) cs
    let line := line + Token.lineFeeds (String.join (lead.map Trivia.text))
    let lexeme := scanToken opened rest
    let token : Token := { lead, kind := lexeme.kind, text := .ofList lexeme.text, line }
    match lexeme.kind with
    | .stop | .broken => [token]
    | _ => token :: tokensFrom fuel lexeme.opened token.lastLine lexeme.rest

/-- The tokens of a source file. -/
def tokenize (source : List Char) : List Token :=
  let (markup, rest) := scanMarkup source
  tokensFrom (rest.length + 1) [] (1 + markup.count '\n') rest

end ApiCatalog.Php
