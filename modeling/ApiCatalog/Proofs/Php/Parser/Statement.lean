import ApiCatalog.Php.Parser.Statement
import ApiCatalog.Proofs.Php.Parser.Expression

/-!
# Statements in place

Every statement ends with a semicolon, a closing brace or the colon of a label, or with another
statement. So each is read in the whole file as it is read in the part alone, and so is any number
of them one after the other.
-/

open ApiCatalog.Php.Parser

namespace ApiCatalog.Php

/-- The same kind of statement, the statements in it on other lines. -/
def StmtKind.Moved (kind kind' : StmtKind) : Prop := kind.withoutLines = kind'.withoutLines

/-- A statement of a kind is the same as itself. -/
theorem StmtKind.Moved.refl (kind : StmtKind) : kind.Moved kind := rfl

/-- Statements on other lines are the same without lines. -/
theorem statementsWithoutLines_eq_of_moved {stmts stmts' : List Stmt}
    (h : List.Forall₂ Stmt.Moved stmts stmts') :
    statementsWithoutLines stmts = statementsWithoutLines stmts' := by
  induction h with
  | nil => rfl
  | cons hstmt _ ih => rw [statementsWithoutLines, statementsWithoutLines, ih, hstmt]

namespace Seam

variable {α β : Type} {c : Seam} {g g' : Grade} {i j : Nat} {s t : ParserState} {r r' : Rules}

/-- A kind of statement that holds no statements is the same in the whole. -/
theorem Reads.kind {p p' : Parser StmtKind} (h : c.Reads g Eq p p') :
    c.Reads g StmtKind.Moved p p' := h.imp fun _ _ h => h ▸ .refl _

/-! ## Declarations -/

/-- A class is closed by the brace of its members. -/
theorem reads_classDecl (hr : c.ReadsRules r r') :
    c.Reads .closing Eq (classDecl r) (classDecl r') :=
  .mono (reads_modifiers.bind fun _ => (reads_expectKeyword (by decide) (by decide)).bind fun _ =>
    reads_word.bind fun _ => (reads_namesAfter (by decide) (by decide)).bind fun _ =>
      (reads_namesAfter (by decide) (by decide)).bind fun _ => (reads_members hr).bind fun _ =>
        .of_pure rfl) (by decide)

theorem reads_interfaceDecl (hr : c.ReadsRules r r') :
    c.Reads .closing Eq (interfaceDecl r) (interfaceDecl r') :=
  .mono (reads_word.bind fun _ => (reads_namesAfter (by decide) (by decide)).bind fun _ =>
    (reads_members hr).bind fun _ => .of_pure rfl) (by decide)

theorem reads_traitDecl (hr : c.ReadsRules r r') :
    c.Reads .closing Eq (traitDecl r) (traitDecl r') :=
  .mono (reads_word.bind fun _ => (reads_members hr).bind fun _ => .of_pure rfl) (by decide)

theorem reads_enumDecl (hr : c.ReadsRules r r') :
    c.Reads .closing Eq (enumDecl r) (enumDecl r') :=
  .mono (reads_word.bind fun _ => reads_returnType.bind fun _ =>
    (reads_namesAfter (by decide) (by decide)).bind fun _ =>
      (reads_membersOf (reads_enumMember hr)).bind fun _ => .of_pure rfl) (by decide)

/-- A function is closed by the brace of its body. -/
theorem reads_functionDecl (hr : c.ReadsRules r r') :
    c.Reads .closing Eq (functionDecl r) (functionDecl r') :=
  .mono ((reads_signature hr).bind fun _ => (reads_block hr).bind_rel Stmt.moved_refl fun _ _ _ =>
    .of_pure rfl) (by decide)

/-- A block of a namespace is closed by its brace; only an error tells where it began. -/
theorem reads_closeNamespace (line line' : Nat) (text text' : String) :
    c.Reads .closing Eq (closeNamespace line text) (closeNamespace line' text') :=
  .mono (.accept "\x7d" (.of_pure rfl) (reads_throw _)) (by decide)

/-- A namespace inside a part is one with braces, or ends with a semicolon. -/
theorem reads_namespaceDecl (hr : c.ReadsRules r r') (line line' : Nat) (text text' : String) :
    c.Reads .closing StmtKind.Moved (namespaceDecl r line text) (namespaceDecl r' line' text') := by
  have hbody : ∀ name, c.Reads .closing StmtKind.Moved
      (manyUntil (fun t => t.isSymbol "\x7d" || t.kind == .stop) r.stmt >>= fun body =>
        closeNamespace line text >>= fun _ => pure (StmtKind.namespaceBlock name body))
      (manyUntil (fun t => t.isSymbol "\x7d" || t.kind == .stop) r'.stmt >>= fun body =>
        closeNamespace line' text' >>= fun _ => pure (StmtKind.namespaceBlock name body)) := by
    intro name
    have hstmts : c.Reads .loose (List.Forall₂ Stmt.Moved)
        (manyUntil (fun t => t.isSymbol "\x7d" || t.kind == .stop) r.stmt)
        (manyUntil (fun t => t.isSymbol "\x7d" || t.kind == .stop) r'.stmt) :=
      reads_manyUntil Stmt.Moved.refl (fun _ _ => rfl) (hr.stmt.mono (by decide))
    refine .mono (hstmts.bind_rel Stmt.moved_refl fun body body' h =>
      (reads_closeNamespace line line' text text').bind fun _ => .of_pure ?_) (by decide)
    rw [StmtKind.Moved, StmtKind.withoutLines, StmtKind.withoutLines,
      statementsWithoutLines_eq_of_moved h]
  exact .mono ((reads_unlessSymbol "\x7b" (reads_qualifiedName.mono (by decide))).bind fun name =>
    .accept "\x7b" (hbody name) (reads_semicolon.bind fun _ => .of_pure (.refl _))) (by decide)

/-- Whether an import is of functions or constants is seen by its first word. -/
theorem reads_importKeyword : c.Reads .loose Eq importKeyword importKeyword := by
  have hkeyword : ∀ k : String, c.Reads .closing Eq (advance >>= fun _ => pure (some k))
      (advance >>= fun _ => pure (some k)) :=
    fun k => .mono (reads_advance.bind_rel .refl fun _ _ _ => .of_pure rfl) (by decide)
  exact .mono (.bind_rel reads_peek_moved .refl fun t t' ⟨line, h⟩ => by
    rw [show t'.keyword = t.keyword by rw [h]; rfl]
    exact .ite (fun _ => hkeyword _) fun _ => .of_pure rfl) (by decide)

/-- An import may give another name. -/
theorem reads_importAlias : c.Reads .strict Eq importAlias importAlias := by
  have hword : c.Reads .closing Eq (some <$> word) (some <$> word) := by
    rw [map_eq_pure_bind]
    exact .mono (reads_word.bind fun _ => .of_pure rfl) (by decide)
  exact .mono (.acceptKeyword (by decide) (by decide) hword (.of_pure rfl)) (by decide)

/-- A clause of a group is a name, perhaps with a keyword in front and another name behind. -/
theorem reads_useClause : c.Reads .moving Eq useClause useClause :=
  .mono (reads_importKeyword.bind fun _ => reads_qualifiedName.bind fun _ =>
    reads_importAlias.bind fun _ => .of_pure rfl) (by decide)

/-- A group of imports is closed by its brace. -/
theorem reads_useGroup (keyword : Option String) (base : String) :
    c.Reads .closing Eq (useGroup keyword base) (useGroup keyword base) :=
  .mono ((reads_expect "\\").bind fun _ =>
    (reads_bracketed "\x7b" "\x7d" (reads_useClause.mono (by decide))).bind fun _ => .of_pure rfl)
    (by decide)

/-- Further clauses each stand behind a comma. -/
theorem reads_useClauses (keyword : Option String) (target : String) :
    c.Reads .loose Eq (useClauses keyword target) (useClauses keyword target) :=
  .mono (reads_importAlias.bind fun _ =>
    .length_bind (reads_moreBy "," (reads_useClause.mono (by decide))) fun _ => .of_pure rfl) (by decide)

/-- Behind the first name of an import stands a group, or further clauses. -/
theorem reads_useTargets (keyword : Option String) (target : String) :
    c.Reads .loose Eq (useTargets keyword target) (useTargets keyword target) :=
  .mono ((reads_atSymbol "\\").bind fun _ => .ite (fun _ => reads_useGroup keyword target)
    fun _ => reads_useClauses keyword target) (by decide)

/-- An import ends with a semicolon. -/
theorem reads_useDecl : c.Reads .closing Eq useDecl useDecl :=
  .mono (reads_importKeyword.bind fun _ => reads_qualifiedName.bind fun _ =>
    (reads_useTargets _ _).bind fun _ => reads_semicolon.bind fun _ => .of_pure rfl) (by decide)

/-! ## Statements that nest others -/

/-- A condition stands in parentheses. -/
theorem reads_condition (hr : c.ReadsRules r r') :
    c.Reads .closing Eq (condition r) (condition r') :=
  .mono ((reads_expect "(").bind fun _ => hr.expr.bind fun _ => reads_expect ")") (by decide)

/-- Statements up to a keyword, which the end of the part is not. -/
theorem reads_stmtsUntil (hr : c.ReadsRules r r') (keywords : List String) :
    c.Reads .loose (List.Forall₂ Stmt.Moved) (stmtsUntil r keywords) (stmtsUntil r' keywords) :=
  reads_manyUntil Stmt.Moved.refl (fun _ _ => rfl) (hr.stmt.mono (by decide))

/-- The body of a loop is one statement, or many up to a keyword. -/
theorem reads_loopBody (hr : c.ReadsRules r r') {keyword : String} (hk : keyword ≠ "")
    (hn : keyword ≠ "namespace") :
    c.Reads .closing Eq (loopBody r keyword) (loopBody r' keyword) :=
  .mono (.accept ":" ((reads_stmtsUntil hr [keyword]).bind_rel Stmt.moved_refl fun _ _ _ =>
    (reads_expectKeyword hk hn).bind fun _ => reads_semicolon) (hr.stmt.void .refl)) (by decide)

/-- Branches behind a statement end where neither keyword comes next. -/
theorem reads_moreBranches (hr : c.ReadsRules r r') :
    c.Reads .strict (List.Forall₂ Stmt.Moved) (get >>= fun s => moreBranches r s.rest.length)
      (get >>= fun s => moreBranches r' s.rest.length) := by
  refine .of_step fun n m i hrec => ?_
  have hbranch : ∀ j, i < j → c.ReadsAt j .closing (List.Forall₂ Stmt.Moved)
      (condition r >>= fun _ => r.stmt >>= fun body => moreBranches r n >>= fun rest =>
        pure (body :: rest))
      (condition r' >>= fun _ => r'.stmt >>= fun body => moreBranches r' m >>= fun rest =>
        pure (body :: rest)) := by
    intro j hij
    exact .mono ((reads_condition hr j).bind_at fun k hjk _ _ =>
      (hr.stmt k).bind_rel .refl fun l hkl _ body body' hbody =>
        (hrec l (by omega)).bind_rel Stmt.moved_refl fun _ _ _ rest rest' hrest =>
          .of_pure (.cons hbody hrest)) (by decide)
  have hlast : c.Reads .closing (List.Forall₂ Stmt.Moved)
      (r.stmt >>= fun stmt => pure [stmt]) (r'.stmt >>= fun stmt => pure [stmt]) :=
    .mono (hr.stmt.bind_rel .refl fun _ _ h => .of_pure (.cons h .nil)) (by decide)
  exact .mono (.acceptKeyword (by decide) (by decide) hbranch fun k _ =>
    .acceptKeyword (by decide) (by decide) (fun l _ => hlast l) fun _ _ => .of_pure .nil) (by decide)

/-- Branches behind colons end with the keyword and a semicolon. -/
theorem reads_colonBranches (hr : c.ReadsRules r r') :
    c.Reads .closing (List.Forall₂ Stmt.Moved) (get >>= fun s => colonBranches r s.rest.length)
      (get >>= fun s => colonBranches r' s.rest.length) := by
  -- On the tokens left: each branch reads its keyword, and then the branches behind it.
  refine .of_step fun n m i hrec => ?_
  have hmore : ∀ j, i < j → ∀ body body', List.Forall₂ Stmt.Moved body body' →
      c.ReadsAt j .closing (List.Forall₂ Stmt.Moved)
        (condition r >>= fun _ => expect ":" >>= fun _ => colonBranches r n >>= fun rest =>
          pure (body ++ rest))
        (condition r' >>= fun _ => expect ":" >>= fun _ => colonBranches r' m >>= fun rest =>
          pure (body' ++ rest)) := by
    intro j hij body body' hbody
    exact .mono ((reads_condition hr j).bind_at fun k hjk _ _ =>
      (reads_expect ":" k).bind_at fun l hkl _ _ =>
        (hrec l (by omega)).bind_rel Stmt.moved_refl fun _ _ _ rest rest' hrest =>
          .of_pure (List.rel_append hbody hrest)) (by decide)
  have hend : ∀ body body', List.Forall₂ Stmt.Moved body body' →
      c.Reads .closing (List.Forall₂ Stmt.Moved)
        (expectKeyword "endif" >>= fun _ => semicolon >>= fun _ => pure body)
        (expectKeyword "endif" >>= fun _ => semicolon >>= fun _ => pure body') :=
    fun body body' h => .mono ((reads_expectKeyword (by decide) (by decide)).bind fun _ =>
      reads_semicolon.bind fun _ => .of_pure h) (by decide)
  have hlast : ∀ body body', List.Forall₂ Stmt.Moved body body' →
      c.Reads .closing (List.Forall₂ Stmt.Moved)
        (expect ":" >>= fun _ => stmtsUntil r ["endif"] >>= fun last =>
          expectKeyword "endif" >>= fun _ => semicolon >>= fun _ => pure (body ++ last))
        (expect ":" >>= fun _ => stmtsUntil r' ["endif"] >>= fun last =>
          expectKeyword "endif" >>= fun _ => semicolon >>= fun _ => pure (body' ++ last)) :=
    fun body body' h => .mono ((reads_expect ":").bind fun _ =>
      (reads_stmtsUntil hr _).bind_rel Stmt.moved_refl fun _ _ h' =>
        hend _ _ (List.rel_append h h')) (by decide)
  -- The statements of the branch, then the keyword behind them: another condition, the last branch
  -- or the end.
  exact .mono ((reads_stmtsUntil hr _ i).bind_rel Stmt.moved_refl fun j hij _ body body' h =>
    .acceptKeyword (by decide) (by decide)
      (fun k hjk => hmore k (Nat.lt_of_le_of_lt hij hjk) body body' h) fun k _ =>
        .acceptKeyword (by decide) (by decide) (fun l _ => hlast body body' h l)
          fun l _ => hend body body' h l) (by decide)

/-- A conditional is of one form by the token behind its condition. -/
theorem reads_conditional (hr : c.ReadsRules r r') :
    c.Reads .closing StmtKind.Moved (conditional r) (conditional r') := by
  -- A conditional is moved when the statements of its branches are.
  have hkind : ∀ {stmts stmts' : List Stmt}, List.Forall₂ Stmt.Moved stmts stmts' →
      (StmtKind.conditional stmts).Moved (.conditional stmts') := by
    intro stmts stmts' h
    rw [StmtKind.Moved, StmtKind.withoutLines, StmtKind.withoutLines,
      statementsWithoutLines_eq_of_moved h]
  have hcolon : c.Reads .closing StmtKind.Moved
      (get >>= fun s => colonBranches r s.rest.length >>= fun stmts => pure (.conditional stmts))
      (get >>= fun s => colonBranches r' s.rest.length >>= fun stmts => pure (.conditional stmts)) := by
    have h := (reads_colonBranches hr).bind_rel Stmt.moved_refl fun _ _ h => Reads.of_pure (hkind h)
    rw [bind_assoc, bind_assoc] at h
    exact h.mono (by decide)
  have hmore : ∀ first first', Stmt.Moved first first' → c.Reads .strict StmtKind.Moved
      (get >>= fun s => moreBranches r s.rest.length >>= fun rest =>
        pure (.conditional (first :: rest)))
      (get >>= fun s => moreBranches r' s.rest.length >>= fun rest =>
        pure (.conditional (first' :: rest))) := by
    intro first first' hfirst
    have h := (reads_moreBranches hr).bind_rel Stmt.moved_refl fun _ _ h =>
      Reads.of_pure (hkind (.cons hfirst h))
    rw [bind_assoc, bind_assoc] at h
    exact h.mono (by decide)
  exact .mono ((reads_condition hr).bind fun _ => .accept ":" hcolon
    (hr.stmt.bind_rel .refl fun first first' h => hmore first first' h)) (by decide)

/-- A part of a loop's head ends in front of its closing symbol. -/
theorem reads_forPart (hr : c.ReadsRules r r') (close : String) :
    c.Reads .closing Eq (forPart r close) (forPart r' close) :=
  .mono ((reads_unlessSymbol close ((reads_sepBy "," hr.expr).mono (by decide))).bind fun _ =>
    reads_expect close) (by decide)

/-- The head of a loop over items stands in parentheses. -/
theorem reads_foreach (hr : c.ReadsRules r r') : c.Reads .closing Eq (foreach r) (foreach r') :=
  .mono ((reads_expect "(").bind fun _ => hr.expr.bind fun _ =>
    (reads_expectKeyword (by decide) (by decide)).bind fun _ => (reads_keyedValue hr).bind fun _ =>
      (reads_expect ")").bind fun _ => reads_loopBody hr (by decide) (by decide)) (by decide)

/-- A case is a keyword, and statements behind a colon or a semicolon. -/
theorem reads_switchCase (hr : c.ReadsRules r r') :
    c.Reads .moving Eq (switchCase r) (switchCase r') := by
  have hcase : c.Reads .moving Eq (expectKeyword "case" >>= fun _ => r.expr >>= fun _ => pure ())
      (expectKeyword "case" >>= fun _ => r'.expr >>= fun _ => pure ()) :=
    .mono ((reads_expectKeyword (by decide) (by decide)).bind fun _ => hr.expr.void fun _ => rfl)
      (by decide)
  have hlabel : c.Reads .moving Eq (caseLabel r) (caseLabel r') :=
    .mono (.acceptKeyword (by decide) (by decide) (.of_pure rfl) hcase) (by decide)
  have hcolon : c.Reads .closing Eq caseColon caseColon :=
    .mono (.accept ":" (.of_pure rfl) reads_semicolon) (by decide)
  exact .mono (hlabel.bind fun _ => hcolon.bind fun _ =>
    (reads_manyUntil Stmt.Moved.refl (fun _ _ => rfl) (hr.stmt.mono (by decide))).void
      Stmt.moved_refl) (by decide)

/-- Cases stand in braces, or behind a colon and up to a keyword. -/
theorem reads_switch (hr : c.ReadsRules r r') : c.Reads .closing Eq (switch r) (switch r') := by
  have hcases : ∀ stop : Token → Bool, (∀ t line, stop { t with line } = stop t) →
      c.Reads .loose (List.Forall₂ Eq) (manyUntil stop (switchCase r)) (manyUntil stop (switchCase r')) :=
    fun stop h => reads_manyUntil (fun _ => rfl) h (reads_switchCase hr)
  exact .mono ((reads_condition hr).bind fun _ => .accept ":"
    ((hcases _ fun _ _ => rfl).of_forall₂.bind fun _ =>
      (reads_expectKeyword (by decide) (by decide)).bind fun _ => reads_semicolon)
    ((reads_expect "\x7b").bind fun _ => (hcases _ fun _ _ => rfl).of_forall₂.bind fun _ =>
      reads_closeBrace)) (by decide)

/-- A clause for errors ends with its block. -/
theorem reads_catchClause (hr : c.ReadsRules r r') :
    c.Reads .closing Eq (catchClause r) (catchClause r') := by
  have hvariable : c.Reads .loose Eq variableIfAny variableIfAny :=
    .mono (.bind_rel reads_peek_moved .refl fun t t' ⟨line, h⟩ => by
      rw [h]
      exact .ite (fun _ => reads_advance.void .refl) fun _ => .of_pure rfl) (by decide)
  exact .mono ((reads_expectKeyword (by decide) (by decide)).bind fun _ => (reads_expect "(").bind fun _ =>
    reads_type.bind fun _ => hvariable.bind fun _ => (reads_expect ")").bind fun _ =>
      (reads_block hr).void Stmt.moved_refl) (by decide)

/-- Clauses end where neither keyword comes next. -/
theorem reads_tryStmt (hr : c.ReadsRules r r') : c.Reads .closing Eq (tryStmt r) (tryStmt r') := by
  have hhandlers : c.Reads .strict Eq (manyUntil (fun t => t.keyword != "catch") (catchClause r))
      (manyUntil (fun t => t.keyword != "catch") (catchClause r')) :=
    .of_forall₂ (reads_manyUntil_strict (fun _ => rfl)
      (fun t t' h => congrArg (! ·) (h.keyword_eq (by decide) (by decide))) (reads_catchClause hr))
  have hunhandled : ∀ handlers : List Unit, c.Reads .strict Eq
      (if handlers.isEmpty then fail else pure ()) (if handlers.isEmpty then fail else pure ()) :=
    fun _ => .mono (.ite (fun _ => reads_fail) fun _ => .of_pure rfl) (by decide)
  exact .mono ((reads_block hr).bind_rel Stmt.moved_refl fun _ _ _ => hhandlers.bind fun handlers =>
    .acceptKeyword (by decide) (by decide) ((reads_block hr).void Stmt.moved_refl)
      (hunhandled handlers)) (by decide)

/-- A directive holds for a statement, for a block, or for what follows. -/
theorem reads_directive (hr : c.ReadsRules r r') :
    c.Reads .closing StmtKind.Moved (directive r) (directive r') := by
  have hsettings : c.Reads .closing Eq (directiveSettings r) (directiveSettings r') :=
    .mono ((reads_bracketed "(" ")" ((reads_constantElement hr).mono (by decide))).bind fun _ =>
      .ite (fun _ => reads_fail) fun _ => .of_pure rfl) (by decide)
  -- A directive is its statements too, and nothing of its settings is kept.
  have hkind : ∀ {stmts stmts' : List Stmt}, List.Forall₂ Stmt.Moved stmts stmts' →
      (StmtKind.directive stmts).Moved (.directive stmts') := by
    intro stmts stmts' h
    rw [StmtKind.Moved, StmtKind.withoutLines, StmtKind.withoutLines,
      statementsWithoutLines_eq_of_moved h]
  have hcolon : c.Reads .closing StmtKind.Moved
      (stmtsUntil r ["enddeclare"] >>= fun body => expectKeyword "enddeclare" >>= fun _ =>
        semicolon >>= fun _ => pure (.directive body))
      (stmtsUntil r' ["enddeclare"] >>= fun body => expectKeyword "enddeclare" >>= fun _ =>
        semicolon >>= fun _ => pure (.directive body)) :=
    .mono ((reads_stmtsUntil hr _).bind_rel Stmt.moved_refl fun _ _ h =>
      (reads_expectKeyword (by decide) (by decide)).bind fun _ => reads_semicolon.bind fun _ =>
        .of_pure (hkind h)) (by decide)
  have hbare : c.Reads .closing StmtKind.Moved (semicolon >>= fun _ => pure (.directive []))
      (semicolon >>= fun _ => pure (.directive [])) :=
    .mono (reads_semicolon.bind fun _ => .of_pure (.refl _)) (by decide)
  have hstmt : c.Reads .closing StmtKind.Moved (r.stmt >>= fun stmt => pure (.directive [stmt]))
      (r'.stmt >>= fun stmt => pure (.directive [stmt])) :=
    .mono (hr.stmt.bind_rel .refl fun _ _ h => .of_pure (hkind (.cons h .nil))) (by decide)
  have hplain : c.Reads .closing StmtKind.Moved
      (atSymbol ";" >>= fun b => peek >>= fun t => if b || t.followsMarkup then
        semicolon >>= fun _ => pure (.directive []) else r.stmt >>= fun stmt => pure (.directive [stmt]))
      (atSymbol ";" >>= fun b => peek >>= fun t => if b || t.followsMarkup then
        semicolon >>= fun _ => pure (.directive []) else r'.stmt >>= fun stmt => pure (.directive [stmt])) :=
    .mono ((reads_atSymbol ";").bind fun _ => .bind_rel reads_peek_moved .refl fun t t' ⟨line, h⟩ => by
      rw [show t'.followsMarkup = t.followsMarkup by rw [h]; rfl]
      exact .ite (fun _ => hbare) fun _ => hstmt) (by decide)
  -- Behind the settings stands a colon with a body, a semicolon or one statement.
  exact .mono (hsettings.bind fun _ => .accept ":" hcolon hplain) (by decide)

/-! ## The statement rule -/

/-- A variable that lasts has a name, and perhaps a value. -/
theorem reads_staticVariable (hr : c.ReadsRules r r') :
    c.Reads .moving Eq (staticVariable r) (staticVariable r') :=
  .mono (reads_variableToken.bind fun _ => (reads_initialValue hr).void fun _ => rfl) (by decide)

/-- A variable that is taken from outside is a single one, or a computed one. -/
theorem reads_simpleVariable (hr : c.ReadsRules r r') :
    c.Reads .closing Eq (simpleVariable r) (simpleVariable r') :=
  .mono (.accept "$" (reads_computedVariable hr) (reads_variableToken.void fun _ => rfl)) (by decide)

/-- An expression as a statement ends with a semicolon. -/
theorem reads_expressionStmt (hr : c.ReadsRules r r') :
    c.Reads .closing StmtKind.Moved (expressionStmt r) (expressionStmt r') :=
  .mono (hr.expr.bind fun _ => reads_semicolon.bind fun _ => .of_pure (.refl _)) (by decide)

/-- A statement that nothing is kept of, whose rest is read alike in the whole. -/
theorem reads_other {p p' : Parser Unit} (h : c.Reads .strict Eq p p') :
    c.Reads .closing StmtKind.Moved (other p) (other p') :=
  .mono (reads_advance.bind_rel .refl fun _ _ _ => h.bind fun _ => .of_pure (.refl _)) (by decide)

/-- A statement that nothing is kept of, whose rest has an end of its own. -/
theorem reads_other_closing {p p' : Parser Unit} (h : c.Reads .closing Eq p p') :
    c.Reads .closing StmtKind.Moved (other p) (other p') := reads_other (h.mono (by decide))

/-- A declaration behind its keyword. -/
theorem reads_behindKeyword {p p' : Parser StmtKind} (h : c.Reads .closing StmtKind.Moved p p') :
    c.Reads .closing StmtKind.Moved (advance >>= fun _ => p) (advance >>= fun _ => p') :=
  .mono (reads_advance.bind_rel .refl fun _ _ _ => h) (by decide)

/-- What is returned may be missing. -/
theorem reads_leavingValue (hr : c.ReadsRules r r') :
    c.Reads .loose Eq (leavingValue r) (leavingValue r') :=
  .mono ((reads_atSymbol ";").bind fun _ => .bind_rel reads_peek_moved .refl fun t t' ⟨line, h⟩ => by
    rw [show t'.followsMarkup = t.followsMarkup by rw [h]; rfl]
    exact .ite (fun _ => hr.expr.void fun _ => rfl) fun _ => .of_pure rfl) (by decide)

/-- What follows a look ahead is read for the tokens that are there. -/
theorem ReadsAt.peekAt_bind {S : β → β → Prop} {n : Nat} {f f' : Token → Parser β}
    (h : ∀ s t, c.Alone i s → c.Whole i t → c.ReadsAt i g S (f (ahead n s)) (f' (ahead n t))) :
    c.ReadsAt i g S (peekAt n >>= f) (peekAt n >>= f') := by
  intro s t a s' hs ht hrun
  exact h s t hs ht hs ht hrun

theorem ReadsAt.peek_bind {S : β → β → Prop} {f f' : Token → Parser β}
    (h : ∀ s t, c.Alone i s → c.Whole i t → c.ReadsAt i g S (f (ahead 0 s)) (f' (ahead 0 t))) :
    c.ReadsAt i g S (peek >>= f) (peek >>= f') := .peekAt_bind h

/-- The text for an error differs, and nothing else depends on it. -/
theorem reads_firstLine : c.Reads .strict (fun _ _ => True) firstLine firstLine :=
  fun _ => .get_bind fun _ _ _ _ => .of_pure trivial

/-- A function with a name, told from a closure by up to two tokens behind the keyword. -/
theorem readsAt_functionStmt (hr : c.ReadsRules r r') (hi : i + 1 < c.part.length)
    (hs : c.Alone i s) (ht : c.Whole i t) :
    c.ReadsAt i .closing StmtKind.Moved
      (peekAt 2 >>= fun u =>
        if (ahead 1 s).kind == .word || ((ahead 1 s).isSymbol "&" && u.kind == .word) then functionDecl r
        else expressionStmt r)
      (peekAt 2 >>= fun u =>
        if (ahead 1 t).kind == .word || ((ahead 1 t).isSymbol "&" && u.kind == .word) then functionDecl r'
        else expressionStmt r') := by
  -- The second token ahead is asked for even where the part ends in front of it.
  refine .peekAt_bind fun s₁ t₁ hs₁ ht₁ => ?_
  have hsame : ((ahead 1 t).isSymbol "&" && (ahead 2 t₁).kind == .word) =
      ((ahead 1 s).isSymbol "&" && (ahead 2 s₁).kind == .word) := by
    rcases Nat.lt_or_eq_of_le (Nat.succ_le_of_lt hi) with hi' | hi'
    · obtain ⟨-, line, hline⟩ := moved_ahead (n := 1) hs ht hi
      obtain ⟨-, line', hline'⟩ := moved_ahead (n := 2) hs₁ ht₁ hi'
      rw [hline, hline']
      rfl
    -- There the first token ahead is the end of the part, which is no ampersand.
    · obtain ⟨h, h'⟩ := isSymbol_last (n := 1) hs ht hi' (show "&" ∉ [";", "\x7d", ":"] by decide)
      rw [h, h', Bool.false_and, Bool.false_and]
  obtain ⟨-, line, hline⟩ := moved_ahead (n := 1) hs ht hi
  rw [hsame, show (ahead 1 t).kind = (ahead 1 s).kind by rw [hline]]
  exact .mono (.ite (fun _ => (reads_functionDecl hr).kind i) fun _ => reads_expressionStmt hr i)
    (by decide)

/-- A statement that starts with a keyword, which is not the last token of the part. -/
theorem readsAt_keywordStmt (hr : c.ReadsRules r r') (k : String) (hi : i + 1 < c.part.length) :
    c.ReadsAt i .closing StmtKind.Moved (keywordStmt r k) (keywordStmt r' k) := by
  -- Most keywords begin a statement that declares nothing: a loop, or a list up to the semicolon.
  have hloop : ∀ {p p' : Parser Unit}, c.Reads .closing Eq p p' → ∀ keyword : String,
      keyword ≠ "" → keyword ≠ "namespace" → c.Reads .closing StmtKind.Moved
        (other (p >>= fun _ => loopBody r keyword)) (other (p' >>= fun _ => loopBody r' keyword)) :=
    fun h _ hk hn => reads_other_closing (.mono (h.bind fun _ => reads_loopBody hr hk hn) (by decide))
  have hlist : ∀ {α : Type} {p p' : Parser α}, c.Reads .loose Eq p p' → c.Reads .closing StmtKind.Moved
      (other (p >>= fun _ => semicolon)) (other (p' >>= fun _ => semicolon)) :=
    fun h => reads_other_closing (.mono (h.bind fun _ => reads_semicolon) (by decide))
  unfold keywordStmt
  refine .peekAt_bind fun s t hs ht => .peek_bind fun _ _ _ _ => ?_
  obtain ⟨-, line, hline⟩ := moved_ahead (n := 1) hs ht hi
  -- One case for each keyword, in the order of the rule; the keyword is the same on both sides.
  split
  case h_1 =>
    exact .mono ((reads_firstLine i).bind_rel (fun _ => trivial) fun j _ _ text text' _ =>
      reads_behindKeyword (reads_namespaceDecl hr _ _ text text') j) (by decide)
  case h_2 => exact (reads_orUnexpected (reads_advance.bind_rel .refl fun _ _ _ => reads_useDecl)).kind i
  case h_3 | h_4 | h_5 | h_6 => exact (reads_classDecl hr).kind i
  case h_7 => exact reads_behindKeyword (reads_interfaceDecl hr).kind i
  case h_8 => exact reads_behindKeyword (reads_traitDecl hr).kind i
  -- Whether `enum` is a keyword here is said by the token behind it.
  case h_9 =>
    rw [hline]
    exact .mono (.ite (fun _ => reads_behindKeyword (reads_enumDecl hr).kind i)
      fun _ => reads_expressionStmt hr i) (by decide)
  case h_10 => exact readsAt_functionStmt hr hi hs ht
  case h_11 =>
    exact reads_behindKeyword (.mono ((reads_constantElements hr).bind fun _ => .of_pure (.refl _))
      (by decide)) i
  case h_12 => exact reads_behindKeyword (reads_conditional hr) i
  case h_13 => exact hloop (reads_condition hr) _ (by decide) (by decide) i
  case h_14 =>
    exact reads_other_closing (.mono (hr.stmt.bind_rel .refl fun _ _ _ =>
      (reads_expectKeyword (by decide) (by decide)).bind fun _ => (reads_condition hr).bind fun _ =>
        reads_semicolon) (by decide)) i
  case h_15 =>
    exact reads_other_closing (.mono ((reads_expect "(").bind fun _ => (reads_forPart hr ";").bind fun _ =>
      (reads_forPart hr ";").bind fun _ => (reads_forPart hr ")").bind fun _ =>
        reads_loopBody hr (by decide) (by decide)) (by decide)) i
  case h_16 => exact reads_other_closing (reads_foreach hr) i
  case h_17 => exact reads_other_closing (reads_switch hr) i
  case h_18 => exact reads_other_closing (reads_tryStmt hr) i
  case h_19 | h_20 | h_21 => exact hlist (reads_leavingValue hr) i
  case h_22 => exact hlist (reads_word.mono (by decide)) i
  case h_23 => exact hlist ((reads_sepBy "," hr.expr).mono (by decide)) i
  case h_24 => exact hlist ((reads_sepBy "," ((reads_simpleVariable hr).mono (by decide))).mono (by decide)) i
  case h_25 => exact hlist ((reads_arguments hr).mono (by decide)) i
  case h_26 => exact reads_behindKeyword (reads_directive hr) i
  case h_27 =>
    rw [hline]
    exact .mono (.ite (fun _ => hlist ((reads_sepBy "," (reads_staticVariable hr)).mono (by decide)) i)
      fun _ => reads_expressionStmt hr i) (by decide)
  case h_45 =>
    rw [show (ahead 1 t).isSymbol ":" = (ahead 1 s).isSymbol ":" by rw [hline]; rfl]
    exact .mono (.ite (fun _ => reads_other ((reads_advance.void .refl).mono (by decide)) i)
      fun _ => reads_expressionStmt hr i) (by decide)
  -- The keywords left begin no statement.
  all_goals exact reads_fail i

/-- A word is not the last token of the part. -/
theorem lt_of_word (hs : c.Alone i s) (hi : i < c.part.length) (hw : (ahead 0 s).kind = .word) :
    i + 1 < c.part.length := by
  obtain ⟨t, ht⟩ := c.exists_whole i
  refine Nat.lt_of_le_of_ne hi fun hlast => ?_
  obtain ⟨hpart, -⟩ := moved_ahead (n := 0) hs ht hi
  obtain ⟨last, hlast?, hends⟩ := c.ends
  rw [List.getLast?_eq_getElem?, ← hlast, Nat.succ_sub_one, ← Nat.add_zero i, hpart] at hlast?
  rw [← Option.some.inj hlast?, Token.endsStatement, hw] at hends
  cases hends

/-- At the end of the part a parser that has to read a token does not succeed. -/
theorem ReadsAt.of_end {R : α → α → Prop} {p q q' : Parser α} (h : c.Reads .closing R p q')
    (hi : c.part.length ≤ i) : c.ReadsAt i .closing R p q := by
  intro s t a s' hs ht hp
  obtain ⟨j, -, hij, hs', -⟩ := h i hs ht hp
  exact absurd (hij rfl) (Nat.not_lt.2 (Nat.le_trans hs'.le hi))

/-- Behind the part, where it is alone, comes the end. -/
theorem kind_ahead_of_end (hs : c.Alone i s) (hi : c.part.length ≤ i) : (ahead 0 s).kind = .stop := by
  obtain ⟨t, ht⟩ := c.exists_whole i
  rw [(ends_ahead (n := 0) hs ht (Nat.le_antisymm hs.le hi)).1, c.stop_kind]

/-- A declaration with attributes is of a kind by its keyword. -/
theorem reads_attributedStmt (hr : c.ReadsRules r r') :
    c.Reads .closing StmtKind.Moved (attributedStmt r) (attributedStmt r') := by
  have hkeyword : c.Reads .closing StmtKind.Moved
      (peek >>= fun t => if t.kind == .word then keywordStmt r t.keyword else fail)
      (peek >>= fun t => if t.kind == .word then keywordStmt r' t.keyword else fail) := by
    intro i
    refine .peek_bind fun s t hs ht => ?_
    rcases Nat.lt_or_ge i c.part.length with hi | hi
    · obtain ⟨-, line, hline⟩ := moved_ahead (n := 0) hs ht hi
      rw [hline]
      exact .mono (.ite (fun hw => readsAt_keywordStmt hr _ (lt_of_word hs hi (eq_of_beq hw)))
        fun _ => reads_fail i) (by decide)
    · rw [kind_ahead_of_end hs hi]
      exact reads_fail i
  exact .mono ((reads_attributes hr).bind fun _ => hkeyword) (by decide)

/-- What a statement is told by stands in front of the end of the part. -/
theorem reads_stmtKind (hr : c.ReadsRules r r') :
    c.Reads .closing StmtKind.Moved (stmtKind r) (stmtKind r') := by
  have hblock : c.Reads .closing StmtKind.Moved (block r >>= fun body => pure (.block body))
      (block r' >>= fun body => pure (.block body)) := by
    refine .mono ((reads_block hr).bind_rel Stmt.moved_refl fun body body' h => .of_pure ?_) (by decide)
    rw [StmtKind.Moved, StmtKind.withoutLines, StmtKind.withoutLines,
      statementsWithoutLines_eq_of_moved h]
  intro i
  refine .peek_bind fun s t hs ht => ?_
  rcases Nat.lt_or_ge i c.part.length with hi | hi
  · obtain ⟨-, line, hline⟩ := moved_ahead (n := 0) hs ht hi
    rw [hline]
    dsimp only
    split
    · next hw => exact readsAt_keywordStmt hr _ (lt_of_word hs hi hw)
    · exact hblock i
    · exact reads_other (.of_pure rfl) i
    · exact reads_attributedStmt hr i
    · exact reads_expressionStmt hr i
  · rw [kind_ahead_of_end hs hi]
    exact .of_end (reads_expressionStmt hr) hi

/-- A statement is read in place, comments in front of it included. -/
theorem reads_statement (hr : c.ReadsRules r r') :
    c.Reads .closing Stmt.Moved (statement r) (statement r') := by
  refine .mono (.bind_rel reads_peek_moved .refl fun t t' ⟨line, h⟩ =>
    (reads_stmtKind hr).bind_rel .refl fun kind kind' hkind => .of_pure ?_) (by decide)
  rw [h, Stmt.Moved, Stmt.withoutLines, Stmt.withoutLines, hkind]

/-- The rules for a part read in place, also with the rules for source that nests deeper. -/
theorem reads_rules : ∀ n m, n ≤ m → c.ReadsRules (rules n) (rules m) := by
  intro n
  induction n with
  | zero => exact fun m _ => ⟨reads_fail.mono (by decide), reads_fail⟩
  | succ n ih =>
    intro m hm
    obtain ⟨m, rfl⟩ : ∃ k, m = k + 1 := ⟨m - 1, by omega⟩
    have hr := ih m (Nat.le_of_succ_le_succ hm)
    exact ⟨reads_expression hr, reads_statement hr⟩

end Seam
end ApiCatalog.Php
