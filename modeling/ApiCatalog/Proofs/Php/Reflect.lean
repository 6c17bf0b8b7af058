import ApiCatalog.Php.Reflect

/-!
# The walk over statements

Where a file stands in another one, its statements start on other lines. A tree without its lines
reflects to the same declarations without theirs, in the same scope. Statements one after the
other reflect to the declarations of the first and then of the others, read in the scope that the
first ones leave; and a namespace statement leaves the scope in front of it behind, so nothing
that stands in front of it is seen from there on.
-/

namespace ApiCatalog.Php

/-! ## Declarations without their lines -/

namespace Declarations

/-- The declarations, their lines apart. -/
def withoutLines (d : Declarations) : Declarations :=
  { d with
    classes := d.classes.map fun c => { c with line := 0 }
    interfaces := d.interfaces.map fun i => { i with line := 0 } }

@[simp] theorem withoutLines_empty : withoutLines {} = {} := rfl

theorem append_def (a b : Declarations) :
    a ++ b =
      { constants := a.constants ++ b.constants, functions := a.functions ++ b.functions
        classes := a.classes ++ b.classes, interfaces := a.interfaces ++ b.interfaces } := rfl

@[simp] theorem empty_append (d : Declarations) : ({} : Declarations) ++ d = d := by
  simp [append_def]

@[simp] theorem append_empty (d : Declarations) : d ++ ({} : Declarations) = d := by
  simp [append_def]

theorem append_assoc (a b c : Declarations) : a ++ b ++ c = a ++ (b ++ c) := by
  simp [append_def]

@[simp] theorem withoutLines_append (a b : Declarations) :
    (a ++ b).withoutLines = a.withoutLines ++ b.withoutLines := by
  simp [append_def, withoutLines]

/-- The declarations of files one behind the other. -/
def concat (ds : List Declarations) : Declarations :=
  { constants := ds.flatMap constants, functions := ds.flatMap functions
    classes := ds.flatMap classes, interfaces := ds.flatMap interfaces }

theorem concat_cons (d : Declarations) (ds : List Declarations) :
    concat (d :: ds) = d ++ concat ds := by
  simp [concat, append_def]

end Declarations

/-! ## Trees without their lines -/

mutual

/-- The statement, the lines in it apart. -/
def Stmt.withoutLines : Stmt → Stmt
  | .mk lead _ kind => .mk lead 0 kind.withoutLines

/-- The kind of a statement, the lines in it apart. -/
def StmtKind.withoutLines : StmtKind → StmtKind
  | .namespaceBlock name body => .namespaceBlock name (statementsWithoutLines body)
  | .block body => .block (statementsWithoutLines body)
  | .conditional branches => .conditional (statementsWithoutLines branches)
  | .directive body => .directive (statementsWithoutLines body)
  | kind => kind

/-- The statements, the lines in them apart. -/
def statementsWithoutLines : List Stmt → List Stmt
  | [] => []
  | stmt :: rest => stmt.withoutLines :: statementsWithoutLines rest

end

mutual

theorem reflectStmt_withoutLines (s : Scope) (stmt : Stmt) :
    reflectStmt s stmt.withoutLines =
      ((reflectStmt s stmt).1.withoutLines, (reflectStmt s stmt).2) := by
  cases stmt with
  | mk lead line kind => exact reflectKind_withoutLines s lead line kind

theorem reflectKind_withoutLines (s : Scope) (lead : List Trivia) (line : Nat) (kind : StmtKind) :
    reflectKind s lead 0 kind.withoutLines =
      ((reflectKind s lead line kind).1.withoutLines, (reflectKind s lead line kind).2) := by
  cases kind with
  | namespaceBlock name body =>
    simp only [StmtKind.withoutLines, reflectKind, reflectStmts_withoutLines]
  | block body | conditional body | directive body =>
    exact reflectStmts_withoutLines s body
  | namespaceHeader | imports | classDecl | interfaceDecl | functionDecl | constants | expression
  | traitDecl | enumDecl | other => rfl

theorem reflectStmts_withoutLines (s : Scope) (stmts : List Stmt) :
    reflectStmts s (statementsWithoutLines stmts) =
      ((reflectStmts s stmts).1.withoutLines, (reflectStmts s stmts).2) := by
  cases stmts with
  | nil => rfl
  | cons stmt rest =>
    simp only [statementsWithoutLines, reflectStmts, reflectStmt_withoutLines s stmt,
      reflectStmts_withoutLines _ rest, Declarations.withoutLines_append]

end

/-! ## Statements one after the other -/

theorem reflectStmts_append (s : Scope) (before behind : List Stmt) :
    reflectStmts s (before ++ behind) =
      ((reflectStmts s before).1 ++ (reflectStmts (reflectStmts s before).2 behind).1,
        (reflectStmts (reflectStmts s before).2 behind).2) := by
  induction before generalizing s with
  | nil => simp [reflectStmts]
  | cons stmt rest ih => simp [reflectStmts, ih, Declarations.append_assoc]

/-! ## Namespaces -/

/-- The statement puts a namespace in force. -/
def StmtKind.opensNamespace : StmtKind → Bool
  | .namespaceHeader _ | .namespaceBlock .. => true
  | _ => false

/-- A namespace statement is read alike in every scope, whatever stands in front of it. -/
theorem reflectKind_of_opensNamespace {kind : StmtKind} (h : kind.opensNamespace)
    (s s' : Scope) (lead lead' : List Trivia) (line line' : Nat) :
    reflectKind s lead line kind = reflectKind s' lead' line' kind := by
  cases kind with
  | namespaceHeader | namespaceBlock => rfl
  | _ => cases h

end ApiCatalog.Php
