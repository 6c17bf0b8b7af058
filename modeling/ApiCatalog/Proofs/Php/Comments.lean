import ApiCatalog.Proofs.Php.Reflect
import Mathlib.Data.List.Induction

/-!
# What a documentation comment documents

What a comment is used for shows in what changes when it gets another text. The comment of the file
is looked for from its first item on, and the one of a declaration backwards from there: among the
items of the file (`fileDocComment_append_comment`) and within the stretch in front of a statement
(`docCommentIn_append_comment`). If a comment is found both ways, nothing stands between it and the
declaration, and then it does not belong to the file. So no comment documents the file and a
declaration as well, save a constant that a call of `define` makes: that is no declaration to the
search for the comment of the file (`reflect_reworded`).
-/

namespace ApiCatalog.Php

variable {c c' : String} {kind kind' : StmtKind} {lead lead' back : List Trivia}
  {front behind : List FileItem} {s : Scope} {line : Nat} {e : Expr} {f g : SourceFile}

/-! ## Another text for one comment -/

/-- One comment of a stretch has another text. -/
inductive LeadReworded (c c' : String) : List Trivia → List Trivia → Prop
  | mk (front back : List Trivia) :
    LeadReworded c c' (front ++ .comment c :: back) (front ++ .comment c' :: back)

/-- One comment in front of a member has another text. -/
inductive Member.Reworded (c c' : String) : Member → Member → Prop
  | constants {lead lead' : List Trivia} (names : List String) (h : LeadReworded c c' lead lead') :
    Member.Reworded c c' (.constants lead names) (.constants lead' names)
  | properties {lead lead' : List Trivia} (modifiers names : List String)
      (h : LeadReworded c c' lead lead') :
    Member.Reworded c c' (.properties lead modifiers names) (.properties lead' modifiers names)
  | method {lead lead' : List Trivia} (modifiers : List String) (decl : FunctionDecl)
      (h : LeadReworded c c' lead lead') :
    Member.Reworded c c' (.method lead modifiers decl) (.method lead' modifiers decl)

mutual

/-- One comment in front of a statement, or anywhere in it, has another text. -/
inductive Stmt.Reworded (c c' : String) : Stmt → Stmt → Prop
  | lead {lead lead' : List Trivia} (line : Nat) (kind : StmtKind)
      (h : LeadReworded c c' lead lead') :
    Stmt.Reworded c c' (.mk lead line kind) (.mk lead' line kind)
  | kind {kind kind' : StmtKind} (lead : List Trivia) (line : Nat)
      (h : StmtKind.Reworded c c' kind kind') :
    Stmt.Reworded c c' (.mk lead line kind) (.mk lead line kind')

/-- One comment inside a statement of this kind has another text. -/
inductive StmtKind.Reworded (c c' : String) : StmtKind → StmtKind → Prop
  | namespaceBlock {s s' : Stmt} (name : Option String) (front back : List Stmt)
      (h : Stmt.Reworded c c' s s') :
    StmtKind.Reworded c c' (.namespaceBlock name (front ++ s :: back))
      (.namespaceBlock name (front ++ s' :: back))
  | classDecl {m m' : Member} (decl : ClassDecl) (front back : List Member)
      (h : Member.Reworded c c' m m') :
    StmtKind.Reworded c c' (.classDecl { decl with members := front ++ m :: back })
      (.classDecl { decl with members := front ++ m' :: back })
  | interfaceDecl {m m' : Member} (decl : InterfaceDecl) (front back : List Member)
      (h : Member.Reworded c c' m m') :
    StmtKind.Reworded c c' (.interfaceDecl { decl with members := front ++ m :: back })
      (.interfaceDecl { decl with members := front ++ m' :: back })
  | block {s s' : Stmt} (front back : List Stmt) (h : Stmt.Reworded c c' s s') :
    StmtKind.Reworded c c' (.block (front ++ s :: back)) (.block (front ++ s' :: back))
  | conditional {s s' : Stmt} (front back : List Stmt) (h : Stmt.Reworded c c' s s') :
    StmtKind.Reworded c c' (.conditional (front ++ s :: back)) (.conditional (front ++ s' :: back))
  | directive {s s' : Stmt} (front back : List Stmt) (h : Stmt.Reworded c c' s s') :
    StmtKind.Reworded c c' (.directive (front ++ s :: back)) (.directive (front ++ s' :: back))

end

/-- One comment of a file has another text. -/
inductive SourceFile.Reworded (c c' : String) : SourceFile → SourceFile → Prop
  | statement {s s' : Stmt} (front back : List Stmt) (tail : List Trivia)
      (h : s.Reworded c c' s') :
    SourceFile.Reworded c c' ⟨front ++ s :: back, tail⟩ ⟨front ++ s' :: back, tail⟩
  | tail {tail tail' : List Trivia} (statements : List Stmt) (h : LeadReworded c c' tail tail') :
    SourceFile.Reworded c c' ⟨statements, tail⟩ ⟨statements, tail'⟩

/-- The comment is that of a constant which a call of `define` makes, one of the statements of the
file itself. -/
def SourceFile.RewordsDefine (c c' : String) (f g : SourceFile) : Prop :=
  ∃ front lead lead' line e back constant,
    f.statements = front ++ .mk lead line (.expression e) :: back ∧
    g.statements = front ++ .mk lead' line (.expression e) :: back ∧
    LeadReworded c c' lead lead' ∧
    definedConstant? lead e = some constant ∧ constant.docComment = some c

/-! ## The comment of the file -/

theorem itemsOf_append (lead more : List Trivia) :
    itemsOf (lead ++ more) = itemsOf lead ++ itemsOf more := List.filterMap_append

theorem itemsOf_comment (text : String) (lead : List Trivia) :
    itemsOf (.comment text :: lead) = .comment text :: itemsOf lead := rfl

/-- Which documentation comment follows makes no difference to whether an earlier one belongs to
the file. -/
theorem belongsToFile_append_comment (hc : isDocComment c = true) (hc' : isDocComment c' = true) :
    belongsToFile (front ++ .comment c' :: behind) =
      belongsToFile (front ++ .comment c :: behind) := by
  induction front with
  | nil => simp [belongsToFile, hc, hc']
  | cons item front ih =>
    cases item with
    | comment text => simp only [List.cons_append, belongsToFile, ih]
    | markup => rfl
    | statement kind => rfl

/-- With another text for one comment the file has the same comment, or it had that one, which
belongs to it with what stands behind. -/
theorem fileDocComment_append_comment (hc : isDocComment c = true) (hc' : isDocComment c' = true)
    (front behind : List FileItem) :
    fileDocComment (front ++ .comment c' :: behind) =
        fileDocComment (front ++ .comment c :: behind) ∨
      (fileDocComment (front ++ .comment c :: behind) = some c ∧
        fileDocComment (front ++ .comment c' :: behind) = some c') ∧
        belongsToFile behind = true := by
  -- Along the items in front: an earlier doc comment decides, and all else is passed over.
  induction front with
  | nil =>
    simp only [List.nil_append, fileDocComment, hc, hc']
    by_cases hbelongs : belongsToFile behind = true
    · exact .inr ⟨by simp [hbelongs], hbelongs⟩
    -- If the comment belongs to a declaration behind it, neither wording is the file's.
    · exact .inl (by simp [hbelongs])
  | cons item front ih =>
    cases item with
    | comment text =>
      by_cases htext : isDocComment text = true
      · refine .inl ?_
        simp only [List.cons_append, fileDocComment, htext, if_true]
        rw [belongsToFile_append_comment hc hc']
      · simpa only [List.cons_append, fileDocComment, htext, Bool.false_eq_true, if_false] using ih
    | markup => exact ih
    | statement kind => exact ih

/-- A comment inside a statement makes no difference to whom the comment in front of it belongs. -/
theorem StmtKind.Reworded.takesComment (h : kind.Reworded c c' kind') :
    (FileItem.statement kind').takesComment = (FileItem.statement kind).takesComment := by
  cases h <;> rfl

theorem belongsToFile_append_statement
    (h : (FileItem.statement kind').takesComment = (FileItem.statement kind).takesComment) :
    belongsToFile (front ++ .statement kind' :: behind) =
      belongsToFile (front ++ .statement kind :: behind) := by
  induction front with
  | nil => simp only [List.nil_append, belongsToFile, h]
  | cons item front ih =>
    cases item with
    | comment text => simp only [List.cons_append, belongsToFile, ih]
    | markup => rfl
    | statement kind => rfl

/-- Of a statement the search for the comment of the file sees only whether a comment in front of
it belongs to it. -/
theorem fileDocComment_append_statement
    (h : (FileItem.statement kind').takesComment = (FileItem.statement kind).takesComment) :
    fileDocComment (front ++ .statement kind' :: behind) =
      fileDocComment (front ++ .statement kind :: behind) := by
  induction front with
  | nil => rfl
  | cons item front ih =>
    cases item with
    | comment text =>
      simp only [List.cons_append, fileDocComment, ih, belongsToFile_append_statement h]
    | markup => exact ih
    | statement kind => exact ih

/-! ## The comment of a declaration -/

/-- The stretch can stand between a comment and the declaration that it documents. -/
def Trivia.isQuiet : Trivia → Bool
  | .blank _ => true
  | .comment text => !isDocComment text
  | .markup _ => false

theorem docCommentIn_append_singleton (lead : List Trivia) (t : Trivia) :
    docCommentIn (lead ++ [t]) =
      match t with
      | .blank _ => docCommentIn lead
      | .comment text => if isDocComment text then some text else docCommentIn lead
      | .markup _ => none := by
  unfold docCommentIn
  rw [List.foldl_append]
  cases t <;> rfl

/-- With another text for one comment of a stretch the declaration behind it has the same comment,
or it had that one, and only what is quiet stands between them. -/
theorem docCommentIn_append_comment (hc : isDocComment c = true) (lead back : List Trivia) :
    docCommentIn (lead ++ .comment c' :: back) = docCommentIn (lead ++ .comment c :: back) ∨
      docCommentIn (lead ++ .comment c :: back) = some c ∧ ∀ t ∈ back, t.isQuiet = true := by
  -- From the end of the trivia, as the last doc comment in front of a declaration is its own.
  induction back using List.reverseRecOn with
  | nil =>
    refine .inr ⟨?_, nofun⟩
    rw [docCommentIn_append_singleton]
    exact if_pos hc
  | append_singleton back t ih =>
    have hsplit : ∀ text, lead ++ .comment text :: (back ++ [t]) =
        lead ++ .comment text :: back ++ [t] := fun text => by simp
    rw [hsplit, hsplit, docCommentIn_append_singleton, docCommentIn_append_singleton]
    have hquiet : t.isQuiet = true → (∀ t ∈ back, t.isQuiet = true) →
        ∀ u ∈ back ++ [t], u.isQuiet = true := by
      intro ht hback u hu
      rcases List.mem_append.1 hu with hu | hu
      · exact hback u hu
      · rwa [List.mem_singleton.1 hu]
    cases t with
    | blank text => exact ih.imp_right fun ⟨hown, hback⟩ => ⟨hown, hquiet rfl hback⟩
    -- A doc comment further on hides the reworded one; another comment does not.
    | comment text =>
      by_cases htext : isDocComment text = true
      · exact .inl (by simp only [htext, if_true])
      · have hnot : (Trivia.comment text).isQuiet = true := by simpa [Trivia.isQuiet] using htext
        simpa only [htext, Bool.false_eq_true, if_false] using
          ih.imp_right fun ⟨hown, hback⟩ => ⟨hown, hquiet hnot hback⟩
    | markup text => exact .inl rfl

/-- Over what is quiet it is seen whether a declaration follows. -/
theorem belongsToFile_of_quiet (h : ∀ t ∈ back, t.isQuiet = true) :
    belongsToFile (itemsOf back ++ behind) = belongsToFile behind := by
  induction back with
  | nil => rfl
  | cons t back ih =>
    obtain ⟨ht, hback⟩ := List.forall_mem_cons.1 h
    cases t with
    | blank text => exact ih hback
    | comment text =>
      have htext : isDocComment text = false := by simpa [Trivia.isQuiet] using ht
      rw [itemsOf_comment, List.cons_append, belongsToFile, htext, Bool.false_or]
      exact ih hback
    | markup text => cases ht

/-- A call of `define` makes a constant whatever stands in front of it, and the constant has the
comment there. -/
theorem definedConstant?_eq (lead lead' : List Trivia) (e : Expr) :
    definedConstant? lead' e =
      (definedConstant? lead e).map ({ · with docComment := docCommentIn lead' }) := by
  unfold definedConstant?
  split
  · split <;> rfl
  · rfl

theorem docComment_of_definedConstant? {constant : DeclaredConstant}
    (h : definedConstant? lead e = some constant) : constant.docComment = docCommentIn lead := by
  rw [definedConstant?_eq lead lead] at h
  obtain ⟨-, -, rfl⟩ := Option.map_eq_some_iff.1 h
  rfl

/-- Of what stands in front of a statement only the comment of its declaration counts. -/
theorem reflectKind_congr (h : docCommentIn lead' = docCommentIn lead) :
    reflectKind s lead' line kind = reflectKind s lead line kind := by
  cases kind with
  | expression e =>
    have hsame : definedConstant? lead' e = definedConstant? lead e := by
      rw [definedConstant?_eq lead lead', h]
      exact (definedConstant?_eq lead lead e).symm
    rw [reflectKind, reflectKind, hsame]
  | classDecl | interfaceDecl | functionDecl | constants =>
    simp only [reflectKind, Scope.declareClass, Scope.declareInterface, Scope.declareFunction, h]
  | namespaceHeader | namespaceBlock | imports | traitDecl | enumDecl | block | conditional
  | directive | other => rfl

/-- A statement that no comment belongs to and that defines no constant is read alike, whatever
stands in front of it. -/
theorem reflectKind_of_not_takesComment (h : (FileItem.statement kind).takesComment = false)
    (hdefine : ∀ e, kind = .expression e → definedConstant? lead e = none) :
    reflectKind s lead' line kind = reflectKind s lead line kind := by
  cases kind with
  | expression e =>
    have hnone := hdefine e rfl
    rw [reflectKind, reflectKind, definedConstant?_eq lead lead', hnone]
    rfl
  | classDecl | interfaceDecl | functionDecl | constants => cases h
  | namespaceHeader | namespaceBlock | imports | traitDecl | enumDecl | block | conditional
  | directive | other => rfl

/-! ## Files -/

/-- In front of a statement, another text for the comment that documents the file leaves the
declaration alone, if it is no call of `define`. -/
theorem reflectKind_reworded (hc : isDocComment c = true) (front : List Trivia) (line : Nat)
    (hbelongs : belongsToFile (itemsOf back ++ .statement kind :: behind) = true) :
    (∀ s, reflectKind s (front ++ .comment c' :: back) line kind =
        reflectKind s (front ++ .comment c :: back) line kind) ∨
      ∃ e constant, kind = .expression e ∧
        definedConstant? (front ++ .comment c :: back) e = some constant ∧
        constant.docComment = some c := by
  rcases docCommentIn_append_comment hc front back with hsame | ⟨hown, hquiet⟩
  · exact .inl fun s => reflectKind_congr hsame
  · rw [belongsToFile_of_quiet hquiet, belongsToFile] at hbelongs
    · have htakes : (FileItem.statement kind).takesComment = false := by simpa using hbelongs
      by_cases hdefine : ∃ e constant, kind = .expression e ∧
          definedConstant? (front ++ .comment c :: back) e = some constant
      · obtain ⟨e, constant, hkind, hconstant⟩ := hdefine
        have hcomment := (docComment_of_definedConstant? hconstant).trans hown
        exact .inr ⟨e, constant, hkind, hconstant, hcomment⟩
      · refine .inl fun s => reflectKind_of_not_takesComment htakes fun e hkind => ?_
        refine Option.eq_none_iff_forall_ne_some.2 fun constant hconstant => ?_
        exact hdefine ⟨e, constant, hkind, hconstant⟩
    · nofun

theorem items_statement (front back : List Stmt) (lead tail : List Trivia) (line : Nat)
    (kind : StmtKind) :
    SourceFile.items ⟨front ++ .mk lead line kind :: back, tail⟩ =
      (front.flatMap fun s => itemsOf s.lead ++ [.statement s.kind]) ++
        (itemsOf lead ++ .statement kind :: SourceFile.items ⟨back, tail⟩) := by
  simp [SourceFile.items, Stmt.lead, Stmt.kind]

theorem reflectStmts_congr {stmt stmt' : Stmt} (h : ∀ s, reflectStmt s stmt' = reflectStmt s stmt)
    (front back : List Stmt) (s : Scope) :
    reflectStmts s (front ++ stmt' :: back) = reflectStmts s (front ++ stmt :: back) := by
  simp only [reflectStmts_append, reflectStmts, h]

/-- A comment with another text changes the comment of the file, and not the declarations, or the
other way round, or nothing. The exception is a comment that documents both the file and a constant
which a call of `define` makes. -/
theorem reflect_reworded (hc : isDocComment c = true) (hc' : isDocComment c' = true)
    (h : f.Reworded c c' g) :
    g.reflect.docComment = f.reflect.docComment ∨
      (f.reflect.docComment = some c ∧ g.reflect.docComment = some c') ∧
        (g.reflect.declarations = f.reflect.declarations ∨ f.RewordsDefine c c' g) := by
  -- The comment stands in front of a statement, inside one, or behind the last.
  cases h with
  | statement front back tail hstmt =>
    cases hstmt with
    | lead line kind hlead =>
      -- What the file's comment is depends on the items alone, and those differ in this comment
      -- only.
      obtain ⟨before, between⟩ := hlead
      let items := front.flatMap fun s => itemsOf s.lead ++ [.statement s.kind]
      have hitems : ∀ text, SourceFile.items
          ⟨front ++ .mk (before ++ .comment text :: between) line kind :: back, tail⟩ =
            (items ++ itemsOf before) ++ .comment text ::
              (itemsOf between ++ .statement kind :: SourceFile.items ⟨back, tail⟩) := by
        intro text
        rw [items_statement, itemsOf_append, itemsOf_comment]
        simp [items]
      have hfile := fileDocComment_append_comment hc hc' (items ++ itemsOf before)
        (itemsOf between ++ .statement kind :: SourceFile.items ⟨back, tail⟩)
      rw [← hitems, ← hitems] at hfile
      refine hfile.imp_right fun ⟨hcomment, hbelongs⟩ => ⟨hcomment, ?_⟩
      -- If it is the file's, only a define behind it can have it too.
      rcases reflectKind_reworded hc before line hbelongs with
        hsame | ⟨e, constant, rfl, hconstant, hown⟩
      · have hstmt : ∀ s, reflectStmt s (.mk (before ++ .comment c' :: between) line kind) =
            reflectStmt s (.mk (before ++ .comment c :: between) line kind) := hsame
        exact .inl (congrArg Prod.fst (reflectStmts_congr hstmt front back {}))
      · exact .inr ⟨front, _, _, line, e, back, constant, rfl, rfl, ⟨before, between⟩, hconstant,
          hown⟩
    | kind lead line hkind =>
      -- Inside a statement it is no item of the file.
      refine .inl ?_
      unfold SourceFile.reflect
      rw [items_statement, items_statement, ← List.append_assoc, ← List.append_assoc]
      exact fileDocComment_append_statement hkind.takesComment
  | tail statements hlead =>
    obtain ⟨before, between⟩ := hlead
    let items := statements.flatMap fun s => itemsOf s.lead ++ [.statement s.kind]
    have hitems : ∀ text, SourceFile.items ⟨statements, before ++ .comment text :: between⟩ =
        (items ++ itemsOf before) ++ .comment text :: itemsOf between := by
      intro text
      unfold SourceFile.items
      rw [itemsOf_append, itemsOf_comment, List.append_assoc]
    have hfile := fileDocComment_append_comment hc hc' (items ++ itemsOf before) (itemsOf between)
    rw [← hitems, ← hitems] at hfile
    exact hfile.imp_right fun ⟨hcomment, _⟩ => ⟨hcomment, .inl rfl⟩

/-- A file with a comment of its own in front of that of a class. -/
def listedFile (comment : String) : SourceFile where
  statements := [.mk [.comment comment, .blank " ", .comment "/** A class. */"] 1
    (.classDecl { modifiers := [], name := "A", parents := [], interfaces := [], members := [] })]
  tail := []

/-- The first of two comments documents the file, and not the class. -/
theorem reflect_reworded_listedFile :
    isDocComment "/** A file. */" = true ∧ isDocComment "/** The file. */" = true ∧
      (listedFile "/** A file. */").Reworded "/** A file. */" "/** The file. */"
        (listedFile "/** The file. */") ∧
      ((listedFile "/** The file. */").reflect.docComment =
          (listedFile "/** A file. */").reflect.docComment ∨
        ((listedFile "/** A file. */").reflect.docComment = some "/** A file. */" ∧
          (listedFile "/** The file. */").reflect.docComment = some "/** The file. */") ∧
          ((listedFile "/** The file. */").reflect.declarations =
              (listedFile "/** A file. */").reflect.declarations ∨
            (listedFile "/** A file. */").RewordsDefine "/** A file. */" "/** The file. */"
              (listedFile "/** The file. */"))) := by
  have hc : isDocComment "/** A file. */" = true := by decide +kernel
  have hc' : isDocComment "/** The file. */" = true := by decide +kernel
  have hreworded : (listedFile "/** A file. */").Reworded "/** A file. */" "/** The file. */"
      (listedFile "/** The file. */") :=
    .statement [] [] [] (.lead 1 _ (.mk [] [.blank " ", .comment "/** A class. */"]))
  exact ⟨hc, hc', hreworded, reflect_reworded hc hc' hreworded⟩

/-- The only comment of a file documents the file and the constant that is defined behind it. -/
theorem reflect_define_documented :
    (reflect "<?php\n/** Version. */\ndefine('V', 1);\n".toList).toOption = some
      { docComment := some "/** Version. */"
        declarations := { constants := [⟨"V", some "/** Version. */"⟩] } } := by decide +kernel

end ApiCatalog.Php
