import ApiCatalog.Php.Parser.Members

/-!
# Expressions

An expression is a chain of operands with operators between them. Which operand an operator
takes first makes no difference to documentation, so the chain is read flat; an assignment still
asks for something that can be assigned to on its left. An operand is an atom with suffixes:
calls, elements, members.
-/

namespace ApiCatalog.Php.Parser

/-! ## Operators -/

/-- Operators between two operands, assignments apart. -/
def binaryOperators : List String := [
  "+", "-", "*", "/", "%", ".", "**", "<<", ">>", "<", ">", "<=", ">=", "==", "!=", "===", "!==",
  "<>", "<=>", "&&", "||", "&", "|", "^", "??"]

/-- Operators of assignments. -/
def assignmentOperators : List String := [
  "=", "+=", "-=", "*=", "/=", ".=", "%=", "**=", "??=", "<<=", ">>=", "&=", "|=", "^="]

/-- Words between two operands. -/
def wordOperators : List String := ["and", "or", "xor", "instanceof"]

/-- Operators in front of an operand. -/
def leadingOperators : List String := ["!", "~", "+", "-", "@", "++", "--", "&"]

/-- Words in front of an operand. -/
def leadingWords : List String :=
  ["clone", "print", "include", "include_once", "require", "require_once"]

/-- Words that convert a value when they stand in parentheses in front of it. -/
def castWords : List String := [
  "array", "binary", "bool", "boolean", "double", "float", "int", "integer", "object", "real",
  "string", "unset"]

/-- The expression can be assigned to. -/
def isAssignable : Expr → Bool
  | .place | .call .. | .staticCall .. => true
  | _ => false

/-- The expression can be called, indexed or asked for a member. -/
def takesSuffix : Expr → Bool
  | .number _ | .other => false
  | _ => true

/-! ## Parts of operands -/

/-- A variable whose name is computed, behind its first `$`. -/
def computedVariable (r : Rules) : Nat → Parser Unit
  | 0 => fail
  | fuel + 1 => do
    if ← accept "\x7b" then
      let _ ← r.expr
      expect "\x7d"
    else if ← accept "$" then computedVariable r fuel
    else
      let _ ← variableToken

/-- The name of a member behind its arrow. -/
def memberName (r : Rules) : Parser Unit := do
  if ← accept "\x7b" then
    let _ ← r.expr
    expect "\x7d"
  else if ← accept "$" then computedVariable r (← get).rest.length
  else if (← peek).kind == .variable then
    let _ ← variableToken
  else
    let _ ← word

/-- The expressions in a text behind its first part, and the parts between them. -/
def templateParts (r : Rules) : Nat → Parser Unit
  | 0 => fail
  | fuel + 1 => do
    let _ ← r.expr
    match (← peek).kind with
    | .templateTail =>
      let _ ← advance
    | .templateMiddle =>
      let _ ← advance
      templateParts r fuel
    | _ => fail

/-- One element of an array, perhaps with a key, taken by reference or spread; it may be left
out where elements are assigned to. -/
def element (r : Rules) : Parser Unit := do
  if !(← atSymbol ",") then
    let _ ← accept "..."
    let _ ← accept "&"
    let _ ← r.expr
    if ← accept "=>" then
      let _ ← accept "&"
      let _ ← r.expr

/-- The elements of an array in brackets. -/
def elements (r : Rules) (openSymbol close : String) : Parser Unit := do
  let _ ← bracketed openSymbol close (element r)

/-! ## Functions and classes without names -/

/-- A variable that a closure takes from outside. -/
def capture : Parser Unit := do
  let _ ← accept "&"
  let _ ← variableToken

/-- The variables that a closure takes from outside, if there are any. -/
def captures : Parser Unit := do
  if ← acceptKeyword "use" then
    let _ ← bracketed "(" ")" capture

/-- A closure, from its keyword on. -/
def closure (r : Rules) : Parser Unit := do
  if ← acceptKeyword "fn" then
    let _ ← accept "&"
    let _ ← parameters r
    returnType
    expect "=>"
    let _ ← r.expr
  else
    expectKeyword "function"
    let _ ← accept "&"
    let _ ← parameters r
    captures
    returnType
    let _ ← block r

/-- A class without a name, from its keyword on. -/
def anonymousClass (r : Rules) : Parser Unit := do
  expectKeyword "class"
  argumentsIfAny r
  let _ ← namesAfter "extends"
  let _ ← namesAfter "implements"
  let _ ← members r

/-- Members and elements of the variable that names a class to create. -/
def creationPath (r : Rules) : Nat → Parser Unit
  | 0 => return ()
  | fuel + 1 => do
    if (← atSymbol "->") || (← atSymbol "?->") then
      let _ ← advance
      memberName r
      creationPath r fuel
    else if ← accept "[" then
      let _ ← unlessSymbol "]" r.expr
      expect "]"
      creationPath r fuel
    else if (← atSymbol "::") && (← peekAt 1).kind == .variable then
      let _ ← advance
      let _ ← advance
      creationPath r fuel

/-- The modifiers of a class without a name, if it has any. -/
def anonymousModifiers : Parser Unit := do
  if modifierKeywords.contains (← peek).keyword && (← peekAt 1).keyword == "class" then
    let _ ← modifiers

/-- The name of a class, perhaps relative to the current namespace. -/
def className : Parser Unit := do
  if ← atKeyword "namespace" then
    let _ ← advance
    expect "\\"
    let _ ← qualifiedName
  else
    let _ ← qualifiedName

/-- The class to create, named or given by an expression. -/
def createdClass (r : Rules) : Parser Unit := do
  if ← accept "(" then
    let _ ← r.expr
    expect ")"
  else if (← peek).kind == .variable then
    let _ ← advance
  else if ← accept "$" then computedVariable r (← get).rest.length
  else className

/-- An object of a class that has a name. -/
def createdObject (r : Rules) : Parser Unit := do
  createdClass r
  creationPath r (← get).rest.length
  argumentsIfAny r

/-- What is created behind `new`: an object of a class without a name, or of one that has one. -/
def creation (r : Rules) : Parser Unit := do
  attributes r
  anonymousModifiers
  if ← atKeyword "class" then anonymousClass r else createdObject r

/-! ## Other atoms that start with a word -/

/-- What an arm of a match expression is taken for. -/
def matchConditions (r : Rules) : Parser Unit := do
  let after ← peekAt 1
  if (← atKeyword "default") && (after.isSymbol "=>" || after.isSymbol ",") then
    let _ ← advance
    let _ ← accept ","
  else
    let _ ← itemsFrom "=>" r.expr (← get).rest.length

/-- One arm of a match expression. -/
def matchArm (r : Rules) : Parser Unit := do
  matchConditions r
  expect "=>"
  let _ ← r.expr

/-- A match expression behind its keyword. -/
def matchBody (r : Rules) : Parser Unit := do
  expect "("
  let _ ← r.expr
  expect ")"
  let _ ← bracketed "\x7b" "\x7d" (matchArm r)

/-- The next token ends an expression. -/
def atEnd : Parser Bool := do
  let t ← peek
  return t.followsMarkup || t.kind == .stop || t.kind == .templateTail ||
    t.kind == .templateMiddle || (t.kind == .symbol && [";", ")", ",", "]", "\x7d"].contains t.text)

/-- A value, perhaps with its key in front. -/
def keyedValue (r : Rules) : Parser Unit := do
  let _ ← r.expr
  if ← accept "=>" then
    let _ ← r.expr

/-- What a generator yields, behind the keyword. -/
def yielded (r : Rules) : Parser Unit := do
  if !(← atEnd) then
    let _ ← acceptKeyword "from"
    keyedValue r

/-- The atom that starts with a word. -/
def wordAtom (r : Rules) : Parser Expr := do
  let after ← peekAt 1
  match (← peek).keyword with
  | "new" =>
    let _ ← advance
    creation r
    return .other
  | "function" | "fn" =>
    closure r
    return .other
  | "static" =>
    if after.keyword == "function" || after.keyword == "fn" then
      let _ ← advance
      closure r
      return .other
    else return .name (← qualifiedName)
  | "match" =>
    let _ ← advance
    matchBody r
    return .other
  | "throw" =>
    let _ ← advance
    let _ ← r.expr
    return .other
  | "yield" =>
    let _ ← advance
    yielded r
    return .other
  | "list" =>
    if after.isSymbol "(" then
      let _ ← advance
      elements r "(" ")"
      return .place
    else return .name (← qualifiedName)
  | "array" =>
    if after.isSymbol "(" then
      let _ ← advance
      elements r "(" ")"
      return .group
    else return .name (← qualifiedName)
  | "namespace" =>
    if after.isSymbol "\\" then
      return .name (← sourceOf do
        let _ ← advance
        qualifiedName)
    else fail
  | _ => return .name (← qualifiedName)

/-! ## Operands -/

/-- The operand without suffixes. -/
def atom (r : Rules) : Parser Expr := do
  let t ← peek
  match t.kind with
  | .word => wordAtom r
  | .variable =>
    let _ ← advance
    return .place
  | .number => return .number (← advance).text
  | .quoted | .template .double => return .text (← advance).text
  | .template _ | .nowdoc =>
    let _ ← advance
    return .group
  | .templateHead quote =>
    let text ← sourceOf do
      let _ ← advance
      templateParts r (← get).rest.length
    return if quote == .double then .text text else .group
  | .symbol =>
    match t.text with
    | "\\" => return .name (← qualifiedName)
    | "$" =>
      let _ ← advance
      computedVariable r (← get).rest.length
      return .place
    | "(" =>
      let _ ← advance
      let _ ← r.expr
      expect ")"
      return .group
    | "[" =>
      elements r "[" "]"
      return .place
    | "#[" =>
      attributes r
      let _ ← acceptKeyword "static"
      closure r
      return .other
    | _ => fail
  | _ => fail

/-- The member behind `::` of what `scope` writes, or a call of it. -/
def scopedSuffix (r : Rules) (scope : String) : Parser Expr := do
  let t ← peek
  let method ← sourceOf (memberName r)
  if ← atSymbol "(" then return .staticCall scope method (← arguments r)
  else if t.kind == .variable || t.isSymbol "$" then return .place
  else return .group

/-- The operand `e`, written with `start` as its first tokens, with the suffixes behind it. -/
def suffixes (r : Rules) (start : ParserState) : Nat → Expr → Parser Expr
  | 0, e => return e
  | fuel + 1, e => do
    let t ← peek
    if t.followsMarkup || !takesSuffix e || t.kind != .symbol then return e
    match t.text with
    | "(" =>
      let callee :=
        match e with
        | .name text => text
        | _ => ""
      suffixes r start fuel (.call callee (← arguments r))
    | "[" =>
      let _ ← advance
      let _ ← unlessSymbol "]" r.expr
      expect "]"
      suffixes r start fuel .place
    | "\x7b" =>
      if e matches .place then
        let _ ← advance
        let _ ← r.expr
        expect "\x7d"
        suffixes r start fuel .place
      else return e
    | "->" | "?->" =>
      let _ ← advance
      memberName r
      if ← atSymbol "(" then suffixes r start fuel (.call "" (← arguments r))
      else suffixes r start fuel .place
    | "::" =>
      let scope := textOfTokens (start.rest.take ((← get).taken - start.taken))
      let _ ← advance
      suffixes r start fuel (← scopedSuffix r scope)
    | "++" | "--" =>
      let _ ← advance
      return .other
    | _ => return e

/-- A conversion comes next. -/
def atCast : Parser Bool := do
  let inner ← peekAt 1
  return (← atSymbol "(") && castWords.contains inner.keyword && (← peekAt 2).isSymbol ")"

/-- An operand, and whether operators stand in front of it. -/
def operand (r : Rules) : Nat → Parser (Bool × Expr)
  | 0 => fail
  | fuel + 1 => do
    let t ← peek
    if (t.kind == .symbol && leadingOperators.contains t.text) || leadingWords.contains t.keyword
    then
      let _ ← advance
      return (true, (← operand r fuel).2)
    else if ← atCast then
      let _ ← advance
      let _ ← advance
      let _ ← advance
      return (true, (← operand r fuel).2)
    else
      let start ← get
      let e ← atom r
      return (false, ← suffixes r start (← get).rest.length e)

/-- The operand behind an operator. -/
def nextOperand (r : Rules) : Parser Expr := return (← operand r (← get).rest.length).2

/-- The value between the marks of a choice, and the second mark. -/
def choiceMiddle (r : Rules) : Parser Unit := do
  if !(← accept ":") then
    let _ ← r.expr
    expect ":"

/-- The chain behind an operand: `last` is its last operand, and `whole` what the chain so far
is. -/
def chain (r : Rules) (last whole : Expr) : Nat → Parser Expr
  | 0 => return whole
  | fuel + 1 => do
    let t ← peek
    if t.followsMarkup then return whole
    else if t.kind == .symbol && binaryOperators.contains t.text || wordOperators.contains t.keyword
    then
      let _ ← advance
      chain r (← nextOperand r) .other fuel
    else if t.kind == .symbol && assignmentOperators.contains t.text then
      if isAssignable last then
        let _ ← advance
        chain r (← nextOperand r) .other fuel
      else fail
    else if t.isSymbol "?" then
      let _ ← advance
      choiceMiddle r
      chain r (← nextOperand r) .other fuel
    else return whole

/-- An expression. -/
def expression (r : Rules) : Parser Expr := do
  let (prefixed, first) ← operand r (← get).rest.length
  chain r first (if prefixed then .other else first) (← get).rest.length

end ApiCatalog.Php.Parser
