import ApiCatalog.Php.Parser.Members
import ApiCatalog.Proofs.Php.Parser.Basic
import ApiCatalog.Proofs.Php.Reflect

/-!
# Names, parameters and members in place

The rules up to members of classes, each read in place as the rules it is made of. Lists in
brackets and members in braces do not depend on what stands behind the part; a name or a type at
the end of the part might go on there, so something has to close it.
-/

open ApiCatalog.Php.Parser

namespace ApiCatalog.Php

/-- The same statement on other lines. -/
def Stmt.Moved (stmt stmt' : Stmt) : Prop := stmt.withoutLines = stmt'.withoutLines

/-- A statement is the same as itself, lines and all. -/
theorem Stmt.Moved.refl (stmt : Stmt) : stmt.Moved stmt := rfl

theorem Stmt.moved_refl (stmts : List Stmt) : List.Forall₂ Stmt.Moved stmts stmts :=
  List.forall₂_same.2 fun stmt _ => .refl stmt

namespace Seam

variable {α β : Type} {c : Seam} {g g' : Grade} {i j : Nat} {s t : ParserState}

/-- The recursive rules read in place. -/
structure ReadsRules (c : Seam) (r r' : Rules) : Prop where
  expr : c.Reads .moving Eq r.expr r'.expr
  stmt : c.Reads .closing Stmt.Moved r.stmt r'.stmt

/-! ## Tests across the end -/

/-- The last token of the part ends a statement, so other symbols do not come last. -/
theorem isSymbol_last {n : Nat} (hs : c.Alone i s) (ht : c.Whole i t)
    (hi : i + n + 1 = c.part.length) {sym : String} (hsym : sym ∉ [";", "\x7d", ":"]) :
    (ahead n s).isSymbol sym = false ∧ (ahead n t).isSymbol sym = false := by
  obtain ⟨hpart, line, hline⟩ := moved_ahead (n := n) hs ht (by omega)
  obtain ⟨last, hlast, hends⟩ := c.ends
  have hsame : ahead n s = last := by
    rw [List.getLast?_eq_getElem?, ← hi, Nat.add_sub_cancel, hpart] at hlast
    exact Option.some.inj hlast
  have hfalse : (ahead n s).isSymbol sym = false := by
    rw [← hsame, Token.endsStatement, Bool.and_eq_true, List.contains_iff_mem] at hends
    rw [Token.isSymbol, Bool.and_eq_false_iff]
    exact .inr (beq_false_of_ne fun h => hsym (h ▸ hends.2))
  rw [hline]
  exact ⟨hfalse, hfalse⟩

/-- A test of up to three tokens ahead, the first a symbol that does not end a statement. -/
theorem reads_test {test : Parser Bool} (sym : String) (look : Token → Token → Bool)
    (hsym : sym ∉ [";", "\x7d", ":"]) (hrun : ∀ s : ParserState,
      test.run s = .ok ((ahead 0 s).isSymbol sym && look (ahead 1 s) (ahead 2 s), s))
    (hlook : ∀ u u' v v', u.Moved u' → c.Meets v v' → look u' v' = look u v) :
    c.Reads .loose Eq test test := by
  intro i s t a s' hs ht hp
  rw [hrun] at hp
  cases hp
  refine ⟨i, Nat.le_refl i, Bool.false_ne_true.elim, hs, ?_⟩
  rcases Nat.lt_trichotomy (i + 1) c.part.length with hi | hi | hi
  · refine .inr ⟨_, t, hrun t, ?_, ht⟩
    obtain ⟨line, hline⟩ := (moved_ahead (n := 0) hs ht (by omega)).2
    rw [hline, hlook _ _ _ _ (moved_ahead hs ht hi).2 (meets_ahead hs ht hi)]
    rfl
  · refine .inr ⟨_, t, hrun t, ?_, ht⟩
    obtain ⟨hs', ht'⟩ := isSymbol_last (n := 0) hs ht hi hsym
    rw [hs', ht', Bool.false_and, Bool.false_and]
  · exact .inl ⟨rfl, Nat.le_antisymm hs.le (Nat.le_of_lt_succ hi)⟩

/-- Whether a name goes on is seen two tokens ahead. -/
theorem reads_atSegment : c.Reads .loose Eq atSegment atSegment := by
  refine reads_test "\\" (fun u _ => u.kind == .word) (by decide) (fun _ => rfl) ?_
  rintro u _ v v' ⟨line, rfl⟩ -
  rfl

/-- A mark for writing only is three tokens long, none of which can end a statement. -/
theorem reads_atSetMark : c.Reads .loose Eq atSetMark atSetMark := by
  refine reads_test "(" (fun u v => u.keyword == "set" && v.isSymbol ")") (by decide) (fun s => ?_) ?_
  · rw [← Bool.and_assoc]
    rfl
  · rintro u _ v v' ⟨line, rfl⟩ hv
    rw [hv.isSymbol_eq]
    rfl

/-! ## Names and types -/

/-- The segments of a name are read one by one, each behind a separator. -/
theorem reads_moreSegments : c.Reads .loose Eq (get >>= fun s => moreSegments s.rest.length)
    (get >>= fun s => moreSegments s.rest.length) := by
  refine .of_step fun n m i hrec => ?_
  have hsegment : ∀ j, i ≤ j → c.ReadsAt j .loose Eq
      (advance >>= fun _ => advance >>= fun _ => moreSegments n)
      (advance >>= fun _ => advance >>= fun _ => moreSegments m) := by
    intro j hij
    exact .mono ((reads_advance j).bind_rel .refl fun k hjk hk _ _ _ =>
      (reads_advance k).bind_rel .refl fun l hkl hl _ _ _ => hrec l (by have := hk rfl; omega))
      (by decide)
  exact .mono ((reads_atSegment i).bind_at fun j hij _ _ =>
    .ite (fun _ => hsegment j hij) fun _ => .of_pure rfl) (by decide)

/-- A name takes a token at least, and is written as it stands there. -/
theorem reads_qualifiedName : c.Reads .moving Eq Parser.qualifiedName Parser.qualifiedName :=
  reads_sourceOf (.mono ((reads_accept "\\").bind fun _ => reads_word.bind fun _ =>
    reads_moreSegments) (by decide))

/-- A type in parentheses, or a single name with perhaps a mark in front. -/
theorem reads_typeAtom : c.Reads .moving Eq typeAtom typeAtom := by
  have hgroup : c.Reads .closing Eq
      (sepBy "&" Parser.qualifiedName >>= fun _ => expect ")") (sepBy "&" Parser.qualifiedName >>= fun _ => expect ")") :=
    .mono ((reads_sepBy "&" reads_qualifiedName).bind fun _ => reads_expect ")") (by decide)
  exact .mono ((reads_accept "?").bind fun _ =>
    .accept "(" hgroup (reads_qualifiedName.bind fun _ => .of_pure rfl)) (by decide)

/-- Whether `&` joins types is seen by what comes behind it. -/
theorem reads_atTypeAnd : c.Reads .loose Eq atTypeAnd atTypeAnd := by
  refine .mono (.bind_rel reads_peekAt_one Meets.refl fun u u' h =>
    (reads_atSymbol "&").bind fun b => .of_pure ?_) (by decide)
  have hkind : (u'.kind != .variable) = (u.kind != .variable) :=
    congrArg (! ·) (h.kind_eq (by decide) (by decide))
  rw [hkind, h.isSymbol_eq, h.isSymbol_eq]

/-- The parts of a type are read one by one, each behind `|` or `&`. -/
theorem reads_moreTypes : c.Reads .loose Eq (get >>= fun s => moreTypes s.rest.length)
    (get >>= fun s => moreTypes s.rest.length) := by
  refine .of_step fun n m i hrec => ?_
  have htype : ∀ j, i ≤ j → c.ReadsAt j .loose Eq
      (advance >>= fun _ => typeAtom >>= fun _ => moreTypes n)
      (advance >>= fun _ => typeAtom >>= fun _ => moreTypes m) := by
    intro j hij
    exact .mono ((reads_advance j).bind_rel .refl fun k hjk hk _ _ _ =>
      (reads_typeAtom k).bind_at fun l hkl _ _ => hrec l (by have := hk rfl; omega)) (by decide)
  exact .mono ((reads_atSymbol "|" i).bind_at fun j hij _ _ =>
    (reads_atTypeAnd j).bind_at fun k hjk _ _ =>
      .ite (fun _ => htype k (Nat.le_trans hij hjk)) fun _ => .of_pure rfl) (by decide)

/-- A type takes a token at least; it may go on behind the part. -/
theorem reads_type : c.Reads .moving Eq type type :=
  .mono (reads_typeAtom.bind fun _ => reads_moreTypes) (by decide)

/-- A return type may be missing, so nothing is known of the end. -/
theorem reads_returnType : c.Reads .loose Eq returnType returnType :=
  .mono (.accept ":" reads_type (.of_pure rfl)) (by decide)

/-! ## Arguments and attributes -/

variable {r r' : Rules}

/-- A name of an argument is told from a value by the colon behind it. -/
theorem reads_argumentName : c.Reads .loose Eq argumentName argumentName := by
  have hname : c.Reads .closing Eq (advance >>= fun _ => advance >>= fun _ => pure ())
      (advance >>= fun _ => advance >>= fun _ => pure ()) :=
    .mono (reads_advance.bind_rel .refl fun _ _ _ => reads_advance.void .refl) (by decide)
  exact .mono (.bind_rel reads_peek_moved .refl fun t t' ⟨line, h⟩ =>
    .bind_rel reads_peekAt_one Meets.refl fun u u' hu => by
      rw [h, hu.isSymbol_eq]
      exact .ite (fun _ => hname) fun _ => .of_pure rfl) (by decide)

/-- Behind dots a list of arguments may end at once. -/
theorem reads_spreadValue (hr : c.ReadsRules r r') :
    c.Reads .loose Eq (spreadValue r) (spreadValue r') :=
  .mono ((reads_atSymbol ")").bind fun _ =>
    .ite (fun _ => .of_pure rfl) fun _ => hr.expr.bind fun _ => .of_pure rfl) (by decide)

/-- An argument is an expression, with what may stand in front of one. -/
theorem reads_argument (hr : c.ReadsRules r r') : c.Reads .loose Eq (argument r) (argument r') :=
  .mono (reads_argumentName.bind fun _ => (reads_accept "&").bind fun _ =>
    .accept "..." (reads_spreadValue hr) hr.expr) (by decide)

/-- The closing parenthesis keeps arguments from going on behind the part. -/
theorem reads_arguments (hr : c.ReadsRules r r') :
    c.Reads .closing Eq (arguments r) (arguments r') :=
  reads_bracketed "(" ")" (reads_argument hr)

/-- Without a parenthesis no arguments are read, alone or in the whole. -/
theorem reads_argumentsIfAny (hr : c.ReadsRules r r') :
    c.Reads .strict Eq (argumentsIfAny r) (argumentsIfAny r') :=
  .mono ((reads_atSymbol "(").bind fun _ =>
    .ite (fun _ => (reads_arguments hr).void fun _ => rfl) fun _ => .of_pure rfl) (by decide)

/-- An attribute is a name, and perhaps arguments. -/
theorem reads_attributeItem (hr : c.ReadsRules r r') :
    c.Reads .loose Eq (attributeItem r) (attributeItem r') :=
  .mono (reads_qualifiedName.bind fun _ => reads_argumentsIfAny hr) (by decide)

/-- A group of attributes is closed by its bracket. -/
theorem reads_attributeGroup (hr : c.ReadsRules r r') :
    c.Reads .closing Eq (attributeGroup r) (attributeGroup r') :=
  .mono ((reads_bracketed "#[" "]" (reads_attributeItem hr)).bind fun _ =>
    .ite (fun _ => reads_fail) fun _ => .of_pure rfl) (by decide)

/-- Attributes end where no further group begins. -/
theorem reads_attributes (hr : c.ReadsRules r r') :
    c.Reads .strict Eq (attributes r) (attributes r') := by
  have hgroups : c.Reads .strict Eq (manyUntil (fun t => !t.isSymbol "#[") (attributeGroup r))
      (manyUntil (fun t => !t.isSymbol "#[") (attributeGroup r')) :=
    .of_forall₂ (reads_manyUntil_strict (fun _ => rfl)
      (fun t t' h => congrArg (! ·) (h.isSymbol_eq "#[")) (reads_attributeGroup hr))
  exact hgroups.void fun _ => rfl

/-! ## Modifiers -/

/-- A modifier is a keyword, and perhaps a mark for writing only. -/
theorem reads_modifier : c.Reads .moving Eq modifier modifier := by
  have hmark : c.Reads .closing Eq
      (advance >>= fun _ => advance >>= fun _ => advance >>= fun _ => pure ())
      (advance >>= fun _ => advance >>= fun _ => advance >>= fun _ => pure ()) :=
    .mono (reads_advance.bind_rel .refl fun _ _ _ => reads_advance.bind_rel .refl fun _ _ _ =>
      reads_advance.void .refl) (by decide)
  exact reads_sourceOf (.mono (reads_word.bind fun _ => reads_atSetMark.bind fun _ =>
    .ite (fun _ => hmark) fun _ => .of_pure rfl) (by decide))

/-- Modifiers end at the first token that is none of the keywords. -/
theorem reads_modifiersOf (keywords : List String) :
    c.Reads .loose Eq (modifiersOf keywords) (modifiersOf keywords) :=
  .of_forall₂ (reads_manyUntil (fun _ => rfl) (fun _ _ => rfl) reads_modifier)

/-- This goes for the modifiers of classes and members. -/
theorem reads_modifiers : c.Reads .loose Eq modifiers modifiers := reads_modifiersOf _

/-! ## Parameters -/

/-- A parameter has no type if its variable comes next. -/
theorem reads_parameterType : c.Reads .loose Eq parameterType parameterType := by
  have htype : c.Reads .loose Eq (some <$> sourceOf type) (some <$> sourceOf type) := by
    rw [map_eq_pure_bind]
    exact .mono ((reads_sourceOf reads_type).bind fun _ => .of_pure rfl) (by decide)
  exact .mono (.bind_rel reads_peek_moved .refl fun t t' ⟨line, h⟩ => by
    subst h
    exact .ite (fun _ => .of_pure rfl) fun _ => htype) (by decide)

/-- A value may be missing, so nothing is known of the end. -/
theorem reads_initialValue (hr : c.ReadsRules r r') :
    c.Reads .loose Eq (initialValue r) (initialValue r') := by
  have hvalue : c.Reads .loose Eq (some <$> sourceOf r.expr) (some <$> sourceOf r'.expr) := by
    rw [map_eq_pure_bind, map_eq_pure_bind]
    exact .mono ((reads_sourceOf hr.expr).bind fun _ => .of_pure rfl) (by decide)
  exact .mono (.accept "=" hvalue (.of_pure rfl)) (by decide)

/-- The closing brace ends a block; its statements stand on other lines in the whole. -/
theorem reads_block (hr : c.ReadsRules r r') :
    c.Reads .closing (List.Forall₂ Stmt.Moved) (block r) (block r') := by
  have hbody : c.Reads .loose (List.Forall₂ Stmt.Moved)
      (manyUntil (fun t => t.isSymbol "\x7d" || t.kind == .stop || t.kind == .broken) r.stmt)
      (manyUntil (fun t => t.isSymbol "\x7d" || t.kind == .stop || t.kind == .broken) r'.stmt) :=
    reads_manyUntil Stmt.Moved.refl (fun _ _ => rfl) (hr.stmt.mono (by decide))
  exact .mono ((reads_expect "\x7b").bind fun _ => hbody.bind_rel Stmt.moved_refl fun _ _ h =>
    reads_closeBrace.bind fun _ => .of_pure h) (by decide)

/-- A parameter ends with its variable, which is a token. -/
theorem reads_parameterVariable (promoted : Bool) :
    c.Reads .closing Eq (parameterVariable promoted) (parameterVariable promoted) :=
  .mono ((reads_accept "&").bind fun _ => .ite (fun _ => reads_variableToken) fun _ =>
    (reads_accept "...").bind fun _ => reads_variableToken) (by decide)

/-- A parameter is read part by part; its default may go on behind the part. -/
theorem reads_parameter (hr : c.ReadsRules r r') :
    c.Reads .loose Eq (parameter r) (parameter r') :=
  .mono ((reads_attributes hr).bind fun _ => (reads_modifiersOf _).bind fun _ =>
    reads_parameterType.bind fun _ => (reads_withText (reads_parameterVariable _)).bind fun _ =>
      (reads_initialValue hr).bind fun _ => .of_pure rfl) (by decide)

/-- The closing parenthesis keeps parameters from going on behind the part. -/
theorem reads_parameters (hr : c.ReadsRules r r') :
    c.Reads .closing Eq (parameters r) (parameters r') :=
  reads_bracketed "(" ")" (reads_parameter hr)

/-- Without a parenthesis no parameters are read, alone or in the whole. -/
theorem reads_parametersIfAny (hr : c.ReadsRules r r') :
    c.Reads .strict Eq (parametersIfAny r) (parametersIfAny r') :=
  .mono ((reads_atSymbol "(").bind fun _ =>
    .ite (fun _ => (reads_parameters hr).void fun _ => rfl) fun _ => .of_pure rfl) (by decide)

/-- What an accessor does ends with a brace or a semicolon. -/
theorem reads_hookBody (hr : c.ReadsRules r r') :
    c.Reads .closing Eq (hookBody r) (hookBody r') := by
  have hshort : c.Reads .closing Eq (r.expr >>= fun _ => semicolon) (r'.expr >>= fun _ => semicolon) :=
    .mono (hr.expr.bind fun _ => reads_semicolon) (by decide)
  have hlong : c.Reads .closing Eq (block r >>= fun _ => pure ()) (block r' >>= fun _ => pure ()) :=
    (reads_block hr).void Stmt.moved_refl
  exact .mono (.accept "=>" hshort ((reads_atSymbol "\x7b").bind fun _ =>
    .ite (fun _ => hlong) fun _ => reads_semicolon)) (by decide)

/-- An accessor ends as what it does ends. -/
theorem reads_hook (hr : c.ReadsRules r r') : c.Reads .closing Eq (hook r) (hook r') :=
  .mono ((reads_attributes hr).bind fun _ => reads_modifiers.bind fun _ =>
    (reads_accept "&").bind fun _ => reads_word.bind fun _ =>
      (reads_parametersIfAny hr).bind fun _ => reads_hookBody hr) (by decide)

/-- Accessors stand in braces. -/
theorem reads_hooks (hr : c.ReadsRules r r') : c.Reads .closing Eq (hooks r) (hooks r') := by
  have hall : c.Reads .loose Eq (manyUntil (fun t => t.isSymbol "\x7d" || t.kind == .stop) (hook r))
      (manyUntil (fun t => t.isSymbol "\x7d" || t.kind == .stop) (hook r')) :=
    .of_forall₂ (reads_manyUntil (fun _ => rfl) (fun _ _ => rfl) ((reads_hook hr).mono (by decide)))
  exact .mono ((reads_expect "\x7b").bind fun _ => hall.bind fun _ => reads_closeBrace) (by decide)

/-- A function has a name, so a token is read; its return type may go on. -/
theorem reads_signature (hr : c.ReadsRules r r') :
    c.Reads .moving Eq (signature r) (signature r') :=
  .mono ((reads_expectKeyword (by decide) (by decide)).bind fun _ => (reads_accept "&").bind fun _ =>
    reads_word.bind fun _ => (reads_parameters hr).bind fun _ => reads_returnType.bind fun _ =>
      .of_pure rfl) (by decide)

/-! ## Members -/

/-- A constant is a word and an expression. -/
theorem reads_constantElement (hr : c.ReadsRules r r') :
    c.Reads .moving Eq (constantElement r) (constantElement r') :=
  .mono (reads_word.bind fun _ => (reads_expect "=").bind fun _ => hr.expr.bind fun _ =>
    .of_pure rfl) (by decide)

/-- Whether constants have a type is seen by the token behind the next one. -/
theorem reads_constantType : c.Reads .loose Eq constantType constantType :=
  .mono (.bind_rel reads_peekAt_one Meets.refl fun t t' h => by
    rw [h.isSymbol_eq]
    exact .ite (fun _ => reads_type) fun _ => .of_pure rfl) (by decide)

/-- Constants end with a semicolon. -/
theorem reads_constantElements (hr : c.ReadsRules r r') :
    c.Reads .closing Eq (constantElements r) (constantElements r') :=
  .mono (reads_constantType.bind fun _ => (reads_sepBy "," (reads_constantElement hr)).bind fun _ =>
    reads_semicolon.bind fun _ => .of_pure rfl) (by decide)

/-- A word may be missing. -/
theorem reads_wordIfAny : c.Reads .loose Eq wordIfAny wordIfAny :=
  .mono (.bind_rel reads_peek_moved .refl fun t t' ⟨line, h⟩ => by
    rw [h]
    exact .ite (fun _ => reads_word.void fun _ => rfl) fun _ => .of_pure rfl) (by decide)

/-- The method of a rule is a name, perhaps with its trait in front. -/
theorem reads_traitMethod : c.Reads .moving Eq traitMethod traitMethod :=
  .mono (reads_qualifiedName.bind fun _ => .accept "::" (reads_word.void fun _ => rfl) (.of_pure rfl))
    (by decide)

/-- A rule says which trait is taken, or how the method is called. -/
theorem reads_traitChoice : c.Reads .moving Eq traitChoice traitChoice := by
  have halias : c.Reads .moving Eq (expectKeyword "as" >>= fun _ => modifiers >>= fun _ => wordIfAny)
      (expectKeyword "as" >>= fun _ => modifiers >>= fun _ => wordIfAny) :=
    .mono ((reads_expectKeyword (by decide) (by decide)).bind fun _ => reads_modifiers.bind fun _ =>
      reads_wordIfAny) (by decide)
  exact .mono (.acceptKeyword (by decide) (by decide)
    ((reads_sepBy "," reads_qualifiedName).void fun _ => rfl) halias) (by decide)

/-- A rule ends with a semicolon. -/
theorem reads_traitRule : c.Reads .closing Eq traitRule traitRule :=
  .mono (reads_traitMethod.bind fun _ => reads_traitChoice.bind fun _ => reads_semicolon) (by decide)

/-- The use of traits ends with a brace or a semicolon. -/
theorem reads_traitUse : c.Reads .closing Eq traitUse traitUse := by
  have hrules : c.Reads .loose Eq (manyUntil (fun t => t.isSymbol "\x7d" || t.kind == .stop) traitRule)
      (manyUntil (fun t => t.isSymbol "\x7d" || t.kind == .stop) traitRule) :=
    .of_forall₂ (reads_manyUntil (fun _ => rfl) (fun _ _ => rfl) (reads_traitRule.mono (by decide)))
  exact .mono ((reads_sepBy "," reads_qualifiedName).bind fun _ =>
    .accept "\x7b" (hrules.bind fun _ => reads_closeBrace) reads_semicolon) (by decide)

/-- A property is a variable, and perhaps a value. -/
theorem reads_propertyElement (hr : c.ReadsRules r r') :
    c.Reads .moving Eq (propertyElement r) (propertyElement r') :=
  .mono (reads_variableToken.bind fun _ => (reads_initialValue hr).bind fun _ => .of_pure rfl)
    (by decide)

/-- Properties have no type if a variable comes next. -/
theorem reads_propertyType : c.Reads .loose Eq propertyType propertyType :=
  .mono (.bind_rel reads_peek_moved .refl fun t t' ⟨line, h⟩ => by
    rw [h]
    exact .ite (fun _ => reads_type) fun _ => .of_pure rfl) (by decide)

/-- Accessors and a semicolon both close properties. -/
theorem reads_propertiesEnd (hr : c.ReadsRules r r') :
    c.Reads .closing Eq (propertiesEnd r) (propertiesEnd r') :=
  .mono ((reads_atSymbol "\x7b").bind fun _ =>
    .ite (fun _ => reads_hooks hr) fun _ => reads_semicolon) (by decide)

/-- Properties are closed by what ends them. -/
theorem reads_properties (hr : c.ReadsRules r r') :
    c.Reads .closing Eq (properties r) (properties r') :=
  .mono (reads_propertyType.bind fun _ => (reads_sepBy "," (reads_propertyElement hr)).bind fun _ =>
    (reads_propertiesEnd hr).bind fun _ => .of_pure rfl) (by decide)

/-- A body and a semicolon both close a method. -/
theorem reads_methodEnd (hr : c.ReadsRules r r') :
    c.Reads .closing Eq (methodEnd r) (methodEnd r') :=
  .mono ((reads_atSymbol "\x7b").bind fun _ =>
    .ite (fun _ => (reads_block hr).void Stmt.moved_refl) fun _ => reads_semicolon) (by decide)

/-- A method is closed by what ends it, whatever its modifiers are. -/
theorem reads_methodMember (hr : c.ReadsRules r r') (lead : List Trivia) (modifiers : List String) :
    c.Reads .closing Eq (methodMember r lead modifiers) (methodMember r' lead modifiers) :=
  .mono ((reads_signature hr).bind fun _ => (reads_methodEnd hr).bind fun _ => .of_pure rfl)
    (by decide)

/-- Properties without a modifier are refused, alone and in the whole. -/
theorem reads_propertiesMember (hr : c.ReadsRules r r') (lead : List Trivia)
    (modifiers : List String) :
    c.Reads .closing Eq (propertiesMember r lead modifiers) (propertiesMember r' lead modifiers) :=
  .mono (.ite (fun _ => reads_fail) fun _ => (reads_properties hr).bind fun _ => .of_pure rfl)
    (by decide)

/-- A member that is declared is of one of three kinds, by the keyword that comes next. -/
theorem reads_declaredMember (hr : c.ReadsRules r r') (lead : List Trivia) :
    c.Reads .closing Eq (declaredMember r lead) (declaredMember r' lead) :=
  .mono (reads_modifiers.bind fun modifiers => .acceptKeyword (by decide) (by decide)
    ((reads_constantElements hr).bind fun _ => .of_pure rfl)
    ((reads_atKeyword (by decide) (by decide)).bind fun _ =>
      .ite (fun _ => reads_methodMember hr lead modifiers) fun _ =>
        reads_propertiesMember hr lead modifiers)) (by decide)

/-- A member ends with a brace or a semicolon. -/
theorem reads_member (hr : c.ReadsRules r r') : c.Reads .closing Eq (member r) (member r') :=
  .mono (.bind_rel reads_peek_moved .refl fun t t' ⟨line, h⟩ => by
    rw [h]
    exact (reads_attributes hr).bind fun _ => .acceptKeyword (by decide) (by decide)
      (reads_traitUse.bind fun _ => .of_pure rfl) (reads_declaredMember hr t.lead)) (by decide)

/-- Where a test fails, another rule starts where the test did. -/
theorem reads_retry {test test' : Parser Bool} {p p' q q' : Parser α}
    (htest : c.Reads .strict Eq test test') (hp : c.Reads .closing Eq p p')
    (hq : c.Reads .closing Eq q q') :
    c.Reads .closing Eq
      (get >>= fun start => test >>= fun b => if b then p else set start >>= fun _ => q)
      (get >>= fun start => test' >>= fun b => if b then p' else set start >>= fun _ => q') := by
  intro i s t a s' hs ht hrun
  obtain ⟨_, _, hget, hrun⟩ := run_bind_eq_ok.1 hrun
  cases hget
  -- Only the answer of the test is kept: it has to be the same on both sides.
  obtain ⟨b, s₁, hb, hrun⟩ := run_bind_eq_ok.1 hrun
  obtain ⟨j, hij, -, hs₁, hsame⟩ := htest i hs ht hb
  obtain ⟨_, t₁, hb', rfl, ht₁⟩ := hsame.resolve_left fun h => Bool.false_ne_true h.1.symm
  have hwhole : ∀ r, ((if b then p' else set t >>= fun _ => q') : Parser α).run t₁ = .ok r →
      (get >>= fun start => test' >>= fun b => if b then p' else set start >>= fun _ => q').run t =
        .ok r := by
    intro r h
    exact run_bind_eq_ok.2 ⟨t, t, rfl, run_bind_eq_ok.2 ⟨b, t₁, hb', h⟩⟩
  -- A yes goes on behind what the test read, a no from where it started.
  cases b with
  | true =>
    obtain ⟨k, hjk, hk, hs', hsame⟩ := hp j hs₁ ht₁ hrun
    exact ⟨k, by omega, fun _ => Nat.lt_of_le_of_lt hij (hk rfl), hs',
      hsame.imp_right fun ⟨a', t', h, hR, ht'⟩ => ⟨a', t', hwhole _ h, hR, ht'⟩⟩
  | false =>
    obtain ⟨k, hik, hk, hs', hsame⟩ := hq i hs ht hrun
    exact ⟨k, hik, hk, hs',
      hsame.imp_right fun ⟨a', t', h, hR, ht'⟩ => ⟨a', t', hwhole _ h, hR, ht'⟩⟩

/-- Attributes and the keyword of a case end inside the part. -/
theorem reads_caseKeyword (hr : c.ReadsRules r r') :
    c.Reads .strict Eq (caseKeyword r) (caseKeyword r') :=
  .mono ((reads_attributes hr).bind fun _ => reads_acceptKeyword (by decide) (by decide)) (by decide)

/-- A case ends with a semicolon. -/
theorem reads_enumCase (hr : c.ReadsRules r r') :
    c.Reads .closing Eq (enumCase r) (enumCase r') :=
  .mono (reads_word.bind fun _ => (reads_initialValue hr).bind fun _ => reads_semicolon.bind fun _ =>
    .of_pure rfl) (by decide)

/-- A member that is a property is refused, alone and in the whole. -/
theorem reads_noProperty (hr : c.ReadsRules r r') :
    c.Reads .closing Eq (noProperty r) (noProperty r') :=
  .mono ((reads_member hr).bind fun m => by
    cases m with
    | properties => exact (reads_fail.mono (by decide) : c.Reads .strict Eq _ _)
    | constants | method | other => exact .of_pure rfl) (by decide)

/-- What turns out to be no case is read again as a member. -/
theorem reads_enumMember (hr : c.ReadsRules r r') :
    c.Reads .closing Eq (enumMember r) (enumMember r') :=
  reads_retry (reads_caseKeyword hr) (reads_enumCase hr) (reads_noProperty hr)

/-- Members stand in braces, whatever they are. -/
theorem reads_membersOf {item item' : Parser Member} (h : c.Reads .closing Eq item item') :
    c.Reads .closing Eq (membersOf item) (membersOf item') := by
  have hitems : c.Reads .loose Eq (manyUntil (fun t => t.isSymbol "\x7d" || t.kind == .stop) item)
      (manyUntil (fun t => t.isSymbol "\x7d" || t.kind == .stop) item') :=
    .of_forall₂ (reads_manyUntil (fun _ => rfl) (fun _ _ => rfl) (h.mono (by decide)))
  exact .mono ((reads_expect "\x7b").bind fun _ => hitems.bind fun _ => reads_closeBrace.bind fun _ =>
    .of_pure rfl) (by decide)

/-- The members of a class are closed by the brace. -/
theorem reads_members (hr : c.ReadsRules r r') : c.Reads .closing Eq (members r) (members r') :=
  reads_membersOf (reads_member hr)

/-- Names behind a keyword may go on behind the part. -/
theorem reads_namesAfter {keyword : String} (hk : keyword ≠ "") (hn : keyword ≠ "namespace") :
    c.Reads .loose Eq (namesAfter keyword) (namesAfter keyword) :=
  .mono (.acceptKeyword hk hn (reads_sepBy "," reads_qualifiedName) (.of_pure rfl)) (by decide)

end Seam
end ApiCatalog.Php
