import ApiCatalog.Php.Lexer
import ApiCatalog.Php.Parser.Expression

/-!
# Statements and source files

Statements are told apart by the word they start with; what starts with none of the words here is
an expression. A source file is statements up to the end of its tokens.
-/

namespace ApiCatalog.Php.Parser

/-! ## Declarations -/

/-- A class, from its modifiers on. -/
def classDecl (r : Rules) : Parser StmtKind := do
  let modifiers ← modifiers
  expectKeyword "class"
  let name ← word
  let parents ← namesAfter "extends"
  let interfaces ← namesAfter "implements"
  return .classDecl { modifiers, name, parents, interfaces, members := ← members r }

/-- An interface behind its keyword. -/
def interfaceDecl (r : Rules) : Parser StmtKind := do
  let name ← word
  let parents ← namesAfter "extends"
  return .interfaceDecl { name, parents, members := ← members r }

/-- A trait behind its keyword. -/
def traitDecl (r : Rules) : Parser StmtKind := do
  let _ ← word
  let _ ← members r
  return .traitDecl

/-- An enumeration behind its keyword. -/
def enumDecl (r : Rules) : Parser StmtKind := do
  let _ ← word
  returnType
  let _ ← namesAfter "implements"
  let _ ← membersOf (enumMember r)
  return .enumDecl

/-- A function. -/
def functionDecl (r : Rules) : Parser StmtKind := do
  let decl ← signature r
  let _ ← block r
  return .functionDecl decl

/-- The brace that closes a namespace; `line` and `text` are those of its keyword. -/
def closeNamespace (line : Nat) (text : String) : Parser Unit := do
  if !(← accept "\x7d") then throw (.unexpected text line)

/-- A namespace behind its keyword; `line` and `text` are those of the keyword. -/
def namespaceDecl (r : Rules) (line : Nat) (text : String) : Parser StmtKind := do
  let name ← unlessSymbol "\x7b" qualifiedName
  if ← accept "\x7b" then
    let body ← manyUntil (fun t => t.isSymbol "\x7d" || t.kind == .stop) r.stmt
    closeNamespace line text
    return .namespaceBlock name body
  else
    semicolon
    return .namespaceHeader (name.getD "")

/-- The keyword in front of an import that is no class. -/
def importKeyword : Parser (Option String) := do
  let k := (← peek).keyword
  if k == "function" || k == "const" then
    let _ ← advance
    return some k
  else return none

/-- The name that an import gets, if it is given one. -/
def importAlias : Parser (Option String) := do
  if ← acceptKeyword "as" then some <$> word else return none

/-- One import. -/
def useClause : Parser UseClause := do
  let keyword ← importKeyword
  let target ← qualifiedName
  return { keyword, target, alias? := ← importAlias }

/-- The imports in braces behind their common namespace. -/
def useGroup (keyword : Option String) (base : String) : Parser UseDecl := do
  expect "\\"
  return .grouped keyword base (← bracketed "\x7b" "\x7d" useClause)

/-- The imports behind the first one, which imports `target`. -/
def useClauses (keyword : Option String) (target : String) : Parser UseDecl := do
  let first : UseClause := { keyword, target, alias? := ← importAlias }
  let more ← moreBy "," useClause (← get).rest.length
  return .clauses (first :: more)

/-- The imports behind the first name. -/
def useTargets (keyword : Option String) (target : String) : Parser UseDecl := do
  if ← atSymbol "\\" then useGroup keyword target else useClauses keyword target

/-- An import declaration behind its keyword. -/
def useDecl : Parser StmtKind := do
  let keyword ← importKeyword
  let target ← qualifiedName
  let decl ← useTargets keyword target
  semicolon
  return .imports decl

/-! ## Statements that nest others -/

/-- An expression in parentheses. -/
def condition (r : Rules) : Parser Unit := do
  expect "("
  let _ ← r.expr
  expect ")"

/-- Statements up to one of the keywords. -/
def stmtsUntil (r : Rules) (keywords : List String) : Parser (List Stmt) :=
  manyUntil (fun t => keywords.contains t.keyword || t.kind == .stop) r.stmt

/-- The body of a loop: a statement, or statements between a colon and the keyword. -/
def loopBody (r : Rules) (keyword : String) : Parser Unit := do
  if ← accept ":" then
    let _ ← stmtsUntil r [keyword]
    expectKeyword keyword
    semicolon
  else
    let _ ← r.stmt

/-- The branches of a conditional behind its first one. -/
def moreBranches (r : Rules) : Nat → Parser (List Stmt)
  | 0 => return []
  | fuel + 1 => do
    if ← acceptKeyword "elseif" then
      condition r
      let body ← r.stmt
      return body :: (← moreBranches r fuel)
    else if ← acceptKeyword "else" then return [← r.stmt]
    else return []

/-- The branches of a conditional with colons, behind its first colon. -/
def colonBranches (r : Rules) : Nat → Parser (List Stmt)
  | 0 => fail
  | fuel + 1 => do
    let body ← stmtsUntil r ["elseif", "else", "endif"]
    if ← acceptKeyword "elseif" then
      condition r
      expect ":"
      return body ++ (← colonBranches r fuel)
    else if ← acceptKeyword "else" then
      expect ":"
      let last ← stmtsUntil r ["endif"]
      expectKeyword "endif"
      semicolon
      return body ++ last
    else
      expectKeyword "endif"
      semicolon
      return body

/-- A conditional behind its keyword. -/
def conditional (r : Rules) : Parser StmtKind := do
  condition r
  if ← accept ":" then return .conditional (← colonBranches r (← get).rest.length)
  else
    let first ← r.stmt
    return .conditional (first :: (← moreBranches r (← get).rest.length))

/-- Expressions with commas between them, perhaps none, up to a symbol, which is read. -/
def forPart (r : Rules) (close : String) : Parser Unit := do
  let _ ← unlessSymbol close (sepBy "," r.expr)
  expect close

/-- A loop over an array behind its keyword. -/
def foreach (r : Rules) : Parser Unit := do
  expect "("
  let _ ← r.expr
  expectKeyword "as"
  keyedValue r
  expect ")"
  loopBody r "endforeach"

/-- What a case of a switch is taken for. -/
def caseLabel (r : Rules) : Parser Unit := do
  if !(← acceptKeyword "default") then
    expectKeyword "case"
    let _ ← r.expr

/-- The colon behind what a case is taken for, or a semicolon. -/
def caseColon : Parser Unit := do
  if !(← accept ":") then semicolon

/-- One case of a switch, or its default. -/
def switchCase (r : Rules) : Parser Unit := do
  caseLabel r
  caseColon
  let _ ← manyUntil
    (fun t => ["case", "default", "endswitch"].contains t.keyword || t.isSymbol "\x7d" ||
      t.kind == .stop) r.stmt

/-- A switch behind its keyword. -/
def switch (r : Rules) : Parser Unit := do
  condition r
  if ← accept ":" then
    let _ ← manyUntil (fun t => t.keyword == "endswitch" || t.kind == .stop) (switchCase r)
    expectKeyword "endswitch"
    semicolon
  else
    expect "\x7b"
    let _ ← manyUntil (fun t => t.isSymbol "\x7d" || t.kind == .stop) (switchCase r)
    closeBrace

/-- A variable, if one comes next. -/
def variableIfAny : Parser Unit := do
  if (← peek).kind == .variable then
    let _ ← advance

/-- What is caught, and what is done about it. -/
def catchClause (r : Rules) : Parser Unit := do
  expectKeyword "catch"
  expect "("
  type
  variableIfAny
  expect ")"
  let _ ← block r

/-- A statement with handlers, behind its keyword. -/
def tryStmt (r : Rules) : Parser Unit := do
  let _ ← block r
  let handlers ← manyUntil (fun t => t.keyword != "catch") (catchClause r)
  if ← acceptKeyword "finally" then
    let _ ← block r
  else if handlers.isEmpty then fail

/-- The settings of a directive, one at least. -/
def directiveSettings (r : Rules) : Parser Unit := do
  if (← bracketed "(" ")" (constantElement r)).isEmpty then fail

/-- A directive, and the statements it governs if they are written with it. -/
def directive (r : Rules) : Parser StmtKind := do
  directiveSettings r
  if ← accept ":" then
    let body ← stmtsUntil r ["enddeclare"]
    expectKeyword "enddeclare"
    semicolon
    return .directive body
  else if (← atSymbol ";") || (← peek).followsMarkup then
    semicolon
    return .directive []
  else return .directive [← r.stmt]

/-- A variable of a function that keeps its value, and its first value. -/
def staticVariable (r : Rules) : Parser Unit := do
  let _ ← variableToken
  let _ ← initialValue r

/-- A variable, perhaps with a computed name. -/
def simpleVariable (r : Rules) : Parser Unit := do
  if ← accept "$" then computedVariable r (← get).rest.length
  else
    let _ ← variableToken

/-! ## The statement rule -/

/-- An expression as a statement. -/
def expressionStmt (r : Rules) : Parser StmtKind := do
  let e ← r.expr
  semicolon
  return .expression e

/-- The value that a statement leaves with, if there is one. -/
def leavingValue (r : Rules) : Parser Unit := do
  if !(← atSymbol ";") && !(← peek).followsMarkup then
    let _ ← r.expr

/-- Reads the keyword and then the rest of a statement that nothing is kept of. -/
def other (p : Parser Unit) : Parser StmtKind := do
  let _ ← advance
  p
  return .other

/-- A statement that starts with the keyword `k`. -/
def keywordStmt (r : Rules) (k : String) : Parser StmtKind := do
  let after ← peekAt 1
  let line := (← peek).line
  match k with
  | "namespace" =>
    let text ← firstLine
    let _ ← advance
    namespaceDecl r line text
  | "use" => orUnexpected do
    let _ ← advance
    useDecl
  | "abstract" | "final" | "readonly" | "class" => classDecl r
  | "interface" =>
    let _ ← advance
    interfaceDecl r
  | "trait" =>
    let _ ← advance
    traitDecl r
  | "enum" =>
    if after.kind == .word then
      let _ ← advance
      enumDecl r
    else expressionStmt r
  | "function" =>
    if after.kind == .word || (after.isSymbol "&" && (← peekAt 2).kind == .word) then functionDecl r
    else expressionStmt r
  | "const" =>
    let _ ← advance
    return .constants (← constantElements r)
  | "if" =>
    let _ ← advance
    conditional r
  | "while" => other do
    condition r
    loopBody r "endwhile"
  | "do" => other do
    let _ ← r.stmt
    expectKeyword "while"
    condition r
    semicolon
  | "for" => other do
    expect "("
    forPart r ";"
    forPart r ";"
    forPart r ")"
    loopBody r "endfor"
  | "foreach" => other (foreach r)
  | "switch" => other (switch r)
  | "try" => other (tryStmt r)
  | "return" | "break" | "continue" => other do
    leavingValue r
    semicolon
  | "goto" => other do
    let _ ← word
    semicolon
  | "echo" => other do
    let _ ← sepBy "," r.expr
    semicolon
  | "global" => other do
    let _ ← sepBy "," (simpleVariable r)
    semicolon
  | "unset" => other do
    let _ ← arguments r
    semicolon
  | "declare" =>
    let _ ← advance
    directive r
  | "static" =>
    if after.kind == .variable then other do
      let _ ← sepBy "," (staticVariable r)
      semicolon
    else expressionStmt r
  | "else" | "elseif" | "endif" | "endwhile" | "endfor" | "endforeach" | "endswitch"
  | "enddeclare" | "case" | "default" | "catch" | "finally" | "extends" | "implements"
  | "insteadof" | "as" | "instanceof" => fail
  | _ =>
    if after.isSymbol ":" then other do
      let _ ← advance
    else expressionStmt r

/-- A declaration with attributes, or a closure with them. -/
def attributedStmt (r : Rules) : Parser StmtKind := do
  attributes r
  let t ← peek
  if t.kind == .word then keywordStmt r t.keyword else fail

/-- The kind of a statement and all it holds. -/
def stmtKind (r : Rules) : Parser StmtKind := do
  let t ← peek
  match t.kind, t.text with
  | .word, _ => keywordStmt r t.keyword
  | .symbol, "\x7b" => return .block (← block r)
  | .symbol, ";" => other (pure ())
  | .symbol, "#[" => attributedStmt r
  | _, _ => expressionStmt r

/-- A statement. -/
def statement (r : Rules) : Parser Stmt := do
  let t ← peek
  return .mk t.lead t.line (← stmtKind r)

/-! ## Source files -/

/-- The recursive rules for source that nests at most `n` deep. -/
def rules : Nat → Rules
  | 0 => { expr := fail, stmt := fail }
  | n + 1 => { expr := expression (rules n), stmt := statement (rules n) }

/-- The statements up to the end of the tokens. -/
def sourceFile (r : Rules) : Parser SourceFile := do
  let statements ← manyUntil (fun t => t.kind == .stop) r.stmt
  return { statements, tail := (← peek).lead }

/-- The syntax tree of source text. -/
def parse (source : List Char) : Except SyntaxError SourceFile := do
  let tokens := tokenize source
  let (file, _) ← (sourceFile (rules (tokens.length + 1))).run { rest := tokens }
  return file

end ApiCatalog.Php.Parser
