import ApiCatalog.Php.Declared
import ApiCatalog.Php.Literal
import ApiCatalog.Php.Parser.Statement
import ApiCatalog.Php.Scope

/-!
# From syntax tree to declarations

Statements are walked in order with the scope in force. Blocks, conditionals and directives are
walked into; function bodies and loops are not. A declaration's documentation comment is the last
one in front of it with only comments in between.
-/

namespace ApiCatalog.Php

open Text

/-! ## Documentation comments -/

/-- The last documentation comment of a stretch, unless markup stands behind it. -/
def docCommentIn (lead : List Trivia) : Option String :=
  lead.foldl (fun found trivia =>
    match trivia with
    | .blank _ => found
    | .comment text => if isDocComment text then some text else found
    | .markup _ => none) none

/-- What stands in a file one after the other. -/
inductive FileItem where
  | comment (text : String)
  | markup
  | statement (kind : StmtKind)

/-- The items of a stretch between tokens. -/
def itemsOf (lead : List Trivia) : List FileItem :=
  lead.filterMap fun
    | .blank _ => none
    | .comment text => some (.comment text)
    | .markup _ => some .markup

/-- The items of a file. -/
def SourceFile.items (f : SourceFile) : List FileItem :=
  (f.statements.flatMap fun s => itemsOf s.lead ++ [.statement s.kind]) ++ itemsOf f.tail

/-- The item is a declaration that the comment in front of it belongs to. -/
def FileItem.takesComment : FileItem → Bool
  | .statement kind =>
    match kind with
    | .classDecl _ | .interfaceDecl _ | .traitDecl | .enumDecl | .functionDecl _ | .constants _ => true
    | _ => false
  | _ => false

/-- A documentation comment with these items behind it belongs to the file: another one follows,
or no declaration does. -/
def belongsToFile : List FileItem → Bool
  | .comment text :: rest => isDocComment text || belongsToFile rest
  | item :: _ => !item.takesComment
  | [] => true

/-- The documentation comment of the file: its first one, if that belongs to no declaration. -/
def fileDocComment : List FileItem → Option String
  | .comment text :: rest =>
    if isDocComment text then if belongsToFile rest then some text else none
    else fileDocComment rest
  | _ :: rest => fileDocComment rest
  | [] => none

/-! ## Members -/

/-- The modifier is the keyword, in any letter case. -/
def hasModifier (modifiers : List String) (keyword : String) : Bool :=
  modifiers.any fun m => m.map Char.toLower == keyword

/-- A modifier that names a visibility. -/
def isVisibility (m : String) : Bool :=
  ["public", "protected", "private"].any fun v => (m.map Char.toLower).startsWith v

/-- The visibility that the last such modifier names, public if there is none. -/
def visibilityOf (modifiers : List String) : Visibility :=
  match (modifiers.filter isVisibility).getLast? with
  | some m => .ofKeyword m
  | none => .isPublic

/-- The name of a variable without the sigil in front. -/
def withoutSigil (name : String) : String := .ofList (dropLeading '$' name.toList)

/-- The parameter with its type resolved. -/
def Scope.argument (s : Scope) (p : Parameter) : DeclaredArgument :=
  { name := withoutSigil p.name, type := p.type.map s.resolveType, default := p.default }

/-- The constants that the member declares. -/
def Member.constants? : Member → List DeclaredConstant
  | .constants lead names => names.map fun name => { name, docComment := docCommentIn lead }
  | _ => []

/-- The properties that the member declares. -/
def Member.properties? : Member → List DeclaredProperty
  | .properties lead modifiers names =>
    names.map fun name =>
      { name := withoutSigil name, visibility := visibilityOf modifiers
        isStatic := hasModifier modifiers "static", docComment := docCommentIn lead }
  | _ => []

/-- The method that the member declares. -/
def Scope.method? (s : Scope) : Member → List DeclaredMethod
  | .method lead modifiers decl =>
    [{ name := decl.name, aliases := s.aliases, visibility := visibilityOf modifiers
       isStatic := hasModifier modifiers "static", isFinal := hasModifier modifiers "final"
       isAbstract := hasModifier modifiers "abstract"
       arguments := decl.parameters.map s.argument, docComment := docCommentIn lead }]
  | _ => []

/-! ## Declarations -/

/-- The class, declared in the scope. -/
def Scope.declareClass (s : Scope) (lead : List Trivia) (line : Nat) (decl : ClassDecl) : DeclaredClass :=
  { name := decl.name, ns := s.ns
    isFinal := hasModifier decl.modifiers "final"
    isAbstract := hasModifier decl.modifiers "abstract"
    parent := decl.parents.head?.map s.resolve
    interfaces := decl.interfaces.map s.resolve
    constants := decl.members.flatMap Member.constants?
    properties := decl.members.flatMap Member.properties?
    methods := decl.members.flatMap s.method?
    docComment := docCommentIn lead, line }

/-- The interface, declared in the scope. -/
def Scope.declareInterface (s : Scope) (lead : List Trivia) (line : Nat) (decl : InterfaceDecl) :
    DeclaredInterface :=
  { name := decl.name, ns := s.ns
    parents := decl.parents.map s.resolve
    constants := decl.members.flatMap Member.constants?
    properties := decl.members.flatMap Member.properties?
    methods := decl.members.flatMap s.method?
    docComment := docCommentIn lead, line }

/-- The function, declared in the scope. -/
def Scope.declareFunction (s : Scope) (lead : List Trivia) (decl : FunctionDecl) : DeclaredFunction :=
  { name := decl.name, ns := s.ns, aliases := s.aliases
    arguments := decl.parameters.map s.argument, docComment := docCommentIn lead }

/-- The constant that a call of `define` with a quoted name defines. -/
def definedConstant? (lead : List Trivia) : Expr → Option DeclaredConstant
  | .call callee (.text literal :: _) =>
    if (Scope.absolute callee).map Char.toLower == "define" then
      some { name := .ofList (unquote literal.toList), docComment := docCommentIn lead }
    else none
  | _ => none

mutual

/-- The declarations of a statement, and the scope behind it. -/
def reflectStmt (s : Scope) : Stmt → Declarations × Scope
  | .mk lead line kind => reflectKind s lead line kind

/-- The declarations of a statement of this kind, and the scope behind it. -/
def reflectKind (s : Scope) (lead : List Trivia) (line : Nat) : StmtKind → Declarations × Scope
  | .namespaceHeader name => ({}, { ns := nonempty (Scope.absolute name) })
  | .namespaceBlock name body =>
    ((reflectStmts { ns := name.bind fun n => nonempty (Scope.absolute n) } body).1, {})
  | .imports decl => ({}, s.addImports decl)
  | .classDecl decl => ({ classes := [s.declareClass lead line decl] }, s)
  | .interfaceDecl decl => ({ interfaces := [s.declareInterface lead line decl] }, s)
  | .functionDecl decl => ({ functions := [s.declareFunction lead decl] }, s)
  | .constants names =>
    ({ constants := names.map fun name => { name, docComment := docCommentIn lead } }, s)
  | .expression e => ({ constants := (definedConstant? lead e).toList }, s)
  | .block body | .conditional body | .directive body => reflectStmts s body
  | .traitDecl | .enumDecl | .other => ({}, s)
where
  nonempty (name : String) : Option String := if name.isEmpty then none else some name

/-- The declarations of statements in order, and the scope behind them. -/
def reflectStmts (s : Scope) : List Stmt → Declarations × Scope
  | [] => ({}, s)
  | stmt :: rest =>
    let (first, s) := reflectStmt s stmt
    let (more, s) := reflectStmts s rest
    (first ++ more, s)

end

/-- What the file declares. -/
def SourceFile.reflect (f : SourceFile) : DeclaredFile :=
  { docComment := fileDocComment f.items
    declarations := (reflectStmts {} f.statements).1 }

/-- What source text declares. -/
def reflect (source : List Char) : Except SyntaxError DeclaredFile :=
  (Parser.parse source).map SourceFile.reflect

end ApiCatalog.Php
