import ApiCatalog.Php.Parser.Basic

/-!
# Names, types and parameters

The rules that functions, methods and closures share: qualified names, types with `|` and `&`,
argument lists, attributes, and parameter lists.
-/

namespace ApiCatalog.Php.Parser

/-! ## Names and types -/

/-- One more segment of a name comes next. -/
def atSegment : Parser Bool := return (← atSymbol "\\") && (← peekAt 1).kind == .word

/-- The segments of a name behind its first one. -/
def moreSegments : Nat → Parser Unit
  | 0 => return ()
  | fuel + 1 => do
    if ← atSegment then
      let _ ← advance
      let _ ← advance
      moreSegments fuel

/-- A name with its segments, and perhaps a separator in front. -/
def qualifiedName : Parser String := sourceOf do
  let _ ← accept "\\"
  let _ ← word
  moreSegments (← get).rest.length

/-- A type without `|` and `&` outside parentheses. -/
def typeAtom : Parser Unit := do
  let _ ← accept "?"
  if ← accept "(" then
    let _ ← sepBy "&" qualifiedName
    expect ")"
  else
    let _ ← qualifiedName

/-- An `&` comes next that joins two types and is no reference mark. -/
def atTypeAnd : Parser Bool := do
  let after ← peekAt 1
  return (← atSymbol "&") && after.kind != .variable && !after.isSymbol "..." &&
    !after.isSymbol "&"

/-- The parts of a type behind its first one. -/
def moreTypes : Nat → Parser Unit
  | 0 => return ()
  | fuel + 1 => do
    if (← atSymbol "|") || (← atTypeAnd) then
      let _ ← advance
      typeAtom
      moreTypes fuel

/-- A type. -/
def type : Parser Unit := do
  typeAtom
  moreTypes (← get).rest.length

/-- The type behind a colon, if there is one. -/
def returnType : Parser Unit := do
  if ← accept ":" then type

/-! ## Arguments and attributes -/

/-- The name of an argument and its colon, if they come next. -/
def argumentName : Parser Unit := do
  if (← peek).kind == .word && (← peekAt 1).isSymbol ":" then
    let _ ← advance
    let _ ← advance

/-- What stands behind dots: a list of arguments, or nothing for the function itself. -/
def spreadValue (r : Rules) : Parser Expr := do
  if ← atSymbol ")" then return .other
  else
    let _ ← r.expr
    return .other

/-- One argument of a call: perhaps its name, perhaps a reference mark, and its value. -/
def argument (r : Rules) : Parser Expr := do
  argumentName
  let _ ← accept "&"
  if ← accept "..." then spreadValue r else r.expr

/-- The arguments of a call. -/
def arguments (r : Rules) : Parser (List Expr) := bracketed "(" ")" (argument r)

/-- The arguments of a call, if they come next. -/
def argumentsIfAny (r : Rules) : Parser Unit := do
  if ← atSymbol "(" then
    let _ ← arguments r

/-- One attribute and its arguments. -/
def attributeItem (r : Rules) : Parser Unit := do
  let _ ← qualifiedName
  argumentsIfAny r

/-- One group of attributes, which holds one at least. -/
def attributeGroup (r : Rules) : Parser Unit := do
  if (← bracketed "#[" "]" (attributeItem r)).isEmpty then fail

/-- All attributes in front of a declaration. -/
def attributes (r : Rules) : Parser Unit := do
  let _ ← manyUntil (fun t => !t.isSymbol "#[") (attributeGroup r)

/-! ## Modifiers -/

/-- The keywords in front of a class or member. -/
def modifierKeywords : List String :=
  ["public", "protected", "private", "static", "abstract", "final", "readonly", "var"]

/-- The mark of a visibility that is for writing only comes next. -/
def atSetMark : Parser Bool :=
  return (← atSymbol "(") && (← peekAt 1).keyword == "set" && (← peekAt 2).isSymbol ")"

/-- One modifier; that of writing only is written with the visibility. -/
def modifier : Parser String := sourceOf do
  let _ ← word
  if ← atSetMark then
    let _ ← advance
    let _ ← advance
    let _ ← advance

/-- The keywords in front of a parameter that is also a property. -/
def promotionKeywords : List String := ["public", "protected", "private", "readonly"]

/-- All modifiers in front of a declaration, out of the keywords given. -/
def modifiersOf (keywords : List String) : Parser (List String) :=
  manyUntil (fun t => !keywords.contains t.keyword) modifier

/-- All modifiers in front of a class or member. -/
def modifiers : Parser (List String) := modifiersOf modifierKeywords

/-! ## Parameters -/

/-- A type, unless a variable or its marks come next. -/
def parameterType : Parser (Option String) := do
  let t ← peek
  if t.kind == .variable || t.isSymbol "&" || t.isSymbol "..." then return none
  else some <$> sourceOf type

/-- The value behind an equals sign, if there is one. -/
def initialValue (r : Rules) : Parser (Option String) := do
  if ← accept "=" then some <$> sourceOf r.expr else return none

/-- Statements in braces. -/
def block (r : Rules) : Parser (List Stmt) := do
  expect "\x7b"
  let body ← manyUntil (fun t => t.isSymbol "\x7d" || t.kind == .stop || t.kind == .broken) r.stmt
  closeBrace
  return body

/-- The variable of a parameter with its marks. One that is also a property stands for one
value. -/
def parameterVariable (promoted : Bool) : Parser String := do
  let _ ← accept "&"
  if promoted then variableToken
  else
    let _ ← accept "..."
    variableToken

/-- One parameter. With a modifier it is also a property, and its reference mark is part of its
name. -/
def parameter (r : Rules) : Parser Parameter := do
  attributes r
  let modifiers ← modifiersOf promotionKeywords
  let type ← parameterType
  let written ← withText (parameterVariable !modifiers.isEmpty)
  let default ← initialValue r
  return { name := if modifiers.isEmpty then written.2 else written.1, type, default }

/-- The parameters of a function. -/
def parameters (r : Rules) : Parser (List Parameter) := bracketed "(" ")" (parameter r)

/-- The parameters of a function, if they come next. -/
def parametersIfAny (r : Rules) : Parser Unit := do
  if ← atSymbol "(" then
    let _ ← parameters r

/-- What an accessor does, if it is written out. -/
def hookBody (r : Rules) : Parser Unit := do
  if ← accept "=>" then
    let _ ← r.expr
    semicolon
  else if ← atSymbol "\x7b" then
    let _ ← block r
  else semicolon

/-- One accessor of a property. -/
def hook (r : Rules) : Parser Unit := do
  attributes r
  let _ ← modifiers
  let _ ← accept "&"
  let _ ← word
  parametersIfAny r
  hookBody r

/-- The accessors of a property. -/
def hooks (r : Rules) : Parser Unit := do
  expect "\x7b"
  let _ ← manyUntil (fun t => t.isSymbol "\x7d" || t.kind == .stop) (hook r)
  closeBrace

/-- A function's name, parameters and return type. -/
def signature (r : Rules) : Parser FunctionDecl := do
  expectKeyword "function"
  let _ ← accept "&"
  let name ← word
  let parameters ← parameters r
  returnType
  return { name, parameters }

end ApiCatalog.Php.Parser
