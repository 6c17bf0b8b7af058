import ApiCatalog.Php.SyntaxError
import ApiCatalog.Php.Tree

/-!
# Parsers over tokens

A parser reads tokens from the front of a list. Expressions and statements nest in each other
through closures and classes without names, so every rule is written against the two recursive
rules `Rules`, and those are given one level of nesting at a time.
-/

namespace ApiCatalog.Php

/-- The tokens that are left, how many were read, and the line the last one read ends on. -/
structure ParserState where
  rest : List Token
  taken : Nat := 0
  lastLine : Nat := 1

/-- A parser of an `α`. -/
abbrev Parser (α : Type) := StateT ParserState (Except SyntaxError) α

/-- The rules that other rules recur through. -/
structure Rules where
  expr : Parser Expr
  stmt : Parser Stmt

namespace Parser

/-! ## Single tokens -/

/-- The token `n` places ahead. -/
def peekAt (n : Nat) : Parser Token := do
  let s ← get
  return (s.rest[n]?).getD { kind := .stop, text := "", line := s.lastLine }

/-- The next token. -/
def peek : Parser Token := peekAt 0

/-- Something stands where it cannot. -/
def fail {α : Type} : Parser α := do
  let t ← peek
  throw (.unexpected t.text t.line)

/-- Reads the next token, whatever it is. -/
def advance : Parser Token := do
  let s ← get
  match s.rest with
  | t :: rest =>
    if t.kind == .stop || t.kind == .broken then fail
    else
      set ({ rest, taken := s.taken + 1, lastLine := t.lastLine } : ParserState)
      return t
  | [] => fail

/-- The next token is the symbol. -/
def atSymbol (s : String) : Parser Bool := return (← peek).isSymbol s

/-- The next token is the keyword. -/
def atKeyword (k : String) : Parser Bool := return (← peek).keyword == k

/-- Reads the symbol if it comes next. -/
def accept (s : String) : Parser Bool := do
  if ← atSymbol s then
    let _ ← advance
    return true
  else return false

/-- Reads the keyword if it comes next. -/
def acceptKeyword (k : String) : Parser Bool := do
  if ← atKeyword k then
    let _ ← advance
    return true
  else return false

/-- Reads the symbol, which must come next. -/
def expect (s : String) : Parser Unit := do
  if !(← accept s) then fail

/-- Reads the keyword, which must come next. -/
def expectKeyword (k : String) : Parser Unit := do
  if !(← acceptKeyword k) then fail

/-- Reads a word, keywords included. -/
def word : Parser String := do
  if (← peek).kind == .word then return (← advance).text else fail

/-- Reads a variable. -/
def variableToken : Parser String := do
  if (← peek).kind == .variable then return (← advance).text else fail

/-- Reads a closing brace; at the end of the source it is missing. -/
def closeBrace : Parser Unit := do
  if !(← accept "\x7d") then
    if (← peek).kind == .stop then throw (.missing "\x7d" (← get).lastLine) else fail

/-- Reads the end of a statement: a semicolon, or nothing in front of a closing tag. -/
def semicolon : Parser Unit := do
  if !(← accept ";") then
    if !(← peek).followsMarkup then throw (.missing ";" (← get).lastLine)

/-! ## Repetition -/

/-- Items up to a token that satisfies `stop`, at most `fuel` of them. -/
def manyFrom {α : Type} (stop : Token → Bool) (item : Parser α) : Nat → Parser (List α)
  | 0 => return []
  | fuel + 1 => do
    if stop (← peek) then return []
    let first ← item
    return first :: (← manyFrom stop item fuel)

/-- Items up to a token that satisfies `stop`. -/
def manyUntil {α : Type} (stop : Token → Bool) (item : Parser α) : Parser (List α) := do
  manyFrom stop item (← get).rest.length

/-- Items with a symbol between them, at most `fuel` more. -/
def moreBy {α : Type} (sep : String) (item : Parser α) : Nat → Parser (List α)
  | 0 => return []
  | fuel + 1 => do
    if ← accept sep then
      let next ← item
      return next :: (← moreBy sep item fuel)
    else return []

/-- One item at least, with a symbol between them. -/
def sepBy {α : Type} (sep : String) (item : Parser α) : Parser (List α) := do
  let first ← item
  return first :: (← moreBy sep item (← get).rest.length)

/-- Items with commas between them in front of a closing bracket, at most `fuel` more. -/
def itemsFrom {α : Type} (close : String) (item : Parser α) : Nat → Parser (List α)
  | 0 => return []
  | fuel + 1 => do
    if ← atSymbol close then return []
    let first ← item
    if ← accept "," then return first :: (← itemsFrom close item fuel) else return [first]

/-- Items in brackets, with commas between them and perhaps one behind the last. -/
def bracketed {α : Type} (openSymbol close : String) (item : Parser α) : Parser (List α) := do
  expect openSymbol
  let items ← itemsFrom close item (← get).rest.length
  expect close
  return items

/-- The item, if the next token is not the symbol. -/
def unlessSymbol {α : Type} (s : String) (item : Parser α) : Parser (Option α) := do
  if ← atSymbol s then return none else some <$> item

/-! ## Source text -/

/-- The source text of tokens, without what stands in front of the first. -/
def textOfTokens : List Token → String
  | [] => ""
  | t :: rest => t.text ++ String.join (rest.map fun t => t.leadText ++ t.text)

/-- What the parser reads, and its source text. -/
def withText {α : Type} (p : Parser α) : Parser (String × α) := do
  let s ← get
  let a ← p
  return (textOfTokens (s.rest.take ((← get).taken - s.taken)), a)

/-- The source text of what the parser reads. -/
def sourceOf {α : Type} (p : Parser α) : Parser String := return (← withText p).1

/-- The first line of the source text from the next token on, at most 40 characters of it. -/
def firstLine : Parser String := do
  let text := textOfTokens (← get).rest
  return .ofList ((text.toList.takeWhile (· != '\n')).take 40)

/-- What the parser reads; where it fails, the whole statement from here on is unexpected. -/
def orUnexpected {α : Type} (p : Parser α) : Parser α := do
  let line := (← peek).line
  let text ← firstLine
  tryCatch p fun _ => throw (.unexpected text line)

end Parser
end ApiCatalog.Php
