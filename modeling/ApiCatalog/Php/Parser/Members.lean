import ApiCatalog.Php.Parser.Signature

/-!
# Members of classes

What stands in the braces of a class, interface, trait or enumeration: constants, properties,
methods, the traits it uses and the cases of an enumeration.
-/

namespace ApiCatalog.Php.Parser

/-- A constant and its value. -/
def constantElement (r : Rules) : Parser String := do
  let name ← word
  expect "="
  let _ ← r.expr
  return name

/-- The type of constants, if there is one. -/
def constantType : Parser Unit := do
  if !(← peekAt 1).isSymbol "=" then type

/-- The constants of a declaration behind its keyword, which a type may follow. -/
def constantElements (r : Rules) : Parser (List String) := do
  constantType
  let names ← sepBy "," (constantElement r)
  semicolon
  return names

/-- A word, if one comes next. -/
def wordIfAny : Parser Unit := do
  if (← peek).kind == .word then
    let _ ← word

/-- The method that a rule for the conflicts between traits is about. -/
def traitMethod : Parser Unit := do
  let _ ← qualifiedName
  if ← accept "::" then
    let _ ← word

/-- What a rule for the conflicts between traits says. -/
def traitChoice : Parser Unit := do
  if ← acceptKeyword "insteadof" then
    let _ ← sepBy "," qualifiedName
  else
    expectKeyword "as"
    let _ ← modifiers
    wordIfAny

/-- One rule for the conflicts between traits. -/
def traitRule : Parser Unit := do
  traitMethod
  traitChoice
  semicolon

/-- The traits that a class uses, behind the keyword. -/
def traitUse : Parser Unit := do
  let _ ← sepBy "," qualifiedName
  if ← accept "\x7b" then
    let _ ← manyUntil (fun t => t.isSymbol "\x7d" || t.kind == .stop) traitRule
    closeBrace
  else semicolon

/-- A property of a declaration and its value. -/
def propertyElement (r : Rules) : Parser String := do
  let name ← variableToken
  let _ ← initialValue r
  return name

/-- The type of properties, if there is one. -/
def propertyType : Parser Unit := do
  if (← peek).kind != .variable then type

/-- The end of properties: their accessors, or a semicolon. -/
def propertiesEnd (r : Rules) : Parser Unit := do
  if ← atSymbol "\x7b" then hooks r else semicolon

/-- The properties of a declaration behind its modifiers. -/
def properties (r : Rules) : Parser (List String) := do
  propertyType
  let names ← sepBy "," (propertyElement r)
  propertiesEnd r
  return names

/-- The end of a method: its body, or a semicolon. -/
def methodEnd (r : Rules) : Parser Unit := do
  if ← atSymbol "\x7b" then
    let _ ← block r
  else semicolon

/-- A method, behind its modifiers. -/
def methodMember (r : Rules) (lead : List Trivia) (modifiers : List String) : Parser Member := do
  let decl ← signature r
  methodEnd r
  return .method lead modifiers decl

/-- Properties, behind their modifiers, of which they have one at least. -/
def propertiesMember (r : Rules) (lead : List Trivia) (modifiers : List String) : Parser Member := do
  if modifiers.isEmpty then fail else return .properties lead modifiers (← properties r)

/-- Constants, a method or properties, behind their attributes. -/
def declaredMember (r : Rules) (lead : List Trivia) : Parser Member := do
  let modifiers ← modifiers
  if ← acceptKeyword "const" then return .constants lead (← constantElements r)
  else if ← atKeyword "function" then methodMember r lead modifiers
  else propertiesMember r lead modifiers

/-- One member of a class, interface or trait. -/
def member (r : Rules) : Parser Member := do
  let lead := (← peek).lead
  attributes r
  if ← acceptKeyword "use" then
    traitUse
    return .other
  else declaredMember r lead

/-- The keyword of a case, if one comes next behind attributes. -/
def caseKeyword (r : Rules) : Parser Bool := do
  attributes r
  acceptKeyword "case"

/-- A case of an enumeration, behind its keyword. -/
def enumCase (r : Rules) : Parser Member := do
  let _ ← word
  let _ ← initialValue r
  semicolon
  return .other

/-- A member that is no property. -/
def noProperty (r : Rules) : Parser Member := do
  match ← member r with
  | .properties .. => fail
  | m => return m

/-- One member of an enumeration: a case, or a member that is no property. -/
def enumMember (r : Rules) : Parser Member := do
  let start ← get
  if ← caseKeyword r then enumCase r
  else
    set start
    noProperty r

/-- Members in braces. -/
def membersOf (item : Parser Member) : Parser (List Member) := do
  expect "\x7b"
  let members ← manyUntil (fun t => t.isSymbol "\x7d" || t.kind == .stop) item
  closeBrace
  return members

/-- The members of a class, interface or trait. -/
def members (r : Rules) : Parser (List Member) := membersOf (member r)

/-- The names behind a keyword, none if the keyword does not come next. -/
def namesAfter (keyword : String) : Parser (List String) := do
  if ← acceptKeyword keyword then sepBy "," qualifiedName else return []

end ApiCatalog.Php.Parser
