import ApiCatalog.Php.Token

/-!
# Syntax trees

The tree keeps what documentation is made from. Declarations are kept whole; of a statement that
nests other statements those statements are kept; of an expression only the shapes matter that
define constants and register class aliases, and the rest is `other`. A name, type or default
value is its source text. `lead` is what stands in front of a node's first token, comments
included.
-/

namespace ApiCatalog.Php

/-- An expression. -/
inductive Expr where
  /-- A name, alone or qualified. -/
  | name (text : String)
  /-- A variable, element or list that can be assigned to. -/
  | place
  /-- Text in single or double quotes. -/
  | text (literal : String)
  | number (literal : String)
  /-- A call of a function by its name, with its arguments. -/
  | call (callee : String) (arguments : List Expr)
  /-- A call of a static method. -/
  | staticCall (scope method : String) (arguments : List Expr)
  /-- An expression in parentheses. -/
  | group
  | other
deriving Repr, Inhabited

/-- A parameter of a function or method. -/
structure Parameter where
  /-- The variable, after an `&` if it is a property taken by reference. -/
  name : String
  type : Option String
  default : Option String
deriving DecidableEq, Repr, Inhabited

/-- A function declaration. -/
structure FunctionDecl where
  name : String
  parameters : List Parameter
deriving DecidableEq, Repr, Inhabited

/-- What a class or interface declares inside its braces. -/
inductive Member where
  | constants (lead : List Trivia) (names : List String)
  | properties (lead : List Trivia) (modifiers : List String) (names : List String)
  | method (lead : List Trivia) (modifiers : List String) (decl : FunctionDecl)
  | other
deriving DecidableEq, Repr, Inhabited

/-- A class declaration. -/
structure ClassDecl where
  modifiers : List String
  name : String
  parents : List String
  interfaces : List String
  members : List Member
deriving DecidableEq, Repr, Inhabited

/-- An interface declaration. -/
structure InterfaceDecl where
  name : String
  parents : List String
  members : List Member
deriving DecidableEq, Repr, Inhabited

/-- One import: the name imported and the name it gets. A keyword in front says that it is no
class but a function or constant. -/
structure UseClause where
  keyword : Option String
  target : String
  alias? : Option String
deriving DecidableEq, Repr, Inhabited

/-- An import declaration: single clauses, or clauses in braces under a common namespace, where
a keyword may stand in front of the whole. -/
inductive UseDecl where
  | clauses (clauses : List UseClause)
  | grouped (keyword : Option String) (base : String) (clauses : List UseClause)
deriving DecidableEq, Repr, Inhabited

mutual

/-- A statement with what stands in front of it and the line it starts on. -/
inductive Stmt where
  | mk (lead : List Trivia) (line : Nat) (kind : StmtKind)

/-- The kinds of statements. -/
inductive StmtKind where
  /-- A namespace for the statements behind it. -/
  | namespaceHeader (name : String)
  /-- A namespace for the statements in its braces. -/
  | namespaceBlock (name : Option String) (body : List Stmt)
  | imports (decl : UseDecl)
  | classDecl (decl : ClassDecl)
  | interfaceDecl (decl : InterfaceDecl)
  | traitDecl
  | enumDecl
  | functionDecl (decl : FunctionDecl)
  | constants (names : List String)
  | expression (e : Expr)
  /-- Statements in braces. -/
  | block (body : List Stmt)
  /-- The statements of all branches of a conditional, in order. -/
  | conditional (branches : List Stmt)
  /-- The statements under a directive. -/
  | directive (body : List Stmt)
  | other

end

instance : Inhabited StmtKind := ⟨.other⟩
instance : Inhabited Stmt := ⟨.mk [] 0 .other⟩

namespace Stmt

def lead : Stmt → List Trivia
  | .mk lead _ _ => lead

def line : Stmt → Nat
  | .mk _ line _ => line

def kind : Stmt → StmtKind
  | .mk _ _ kind => kind

end Stmt

/-- A source file: its statements, and what stands behind the last one. -/
structure SourceFile where
  statements : List Stmt
  tail : List Trivia
deriving Inhabited

end ApiCatalog.Php
