import ApiCatalog.Php.Parser.Expression
import ApiCatalog.Proofs.Php.Parser.Signature

/-!
# Expressions in place

An expression at the end of the part might go on with what stands behind it, so it is read in
place only where something closes it; but it reads a token in any case.
-/

open ApiCatalog.Php.Parser

namespace ApiCatalog.Php.Seam

variable {α β : Type} {c : Seam} {g g' : Grade} {i j : Nat} {s t : ParserState} {r r' : Rules}

/-- What depends on the place in the part alone. -/
theorem ReadsAt.get_bind {S : β → β → Prop} {f f' : ParserState → Parser β}
    (h : ∀ s t, c.Alone i s → c.Whole i t → c.ReadsAt i g S (f s) (f' t)) :
    c.ReadsAt i g S (get >>= f) (get >>= f') := by
  intro s t a s' hs ht hrun
  exact h s t hs ht hs ht hrun

/-! ## Parts of operands -/

/-- The name of a computed variable is a variable or stands in braces. -/
theorem reads_computedVariable (hr : c.ReadsRules r r') :
    c.Reads .closing Eq (get >>= fun s => computedVariable r s.rest.length)
      (get >>= fun s => computedVariable r' s.rest.length) := by
  refine .of_step fun n m i hrec => ?_
  have hname : c.Reads .closing Eq (variableToken >>= fun _ => pure ()) (variableToken >>= fun _ => pure ()) :=
    reads_variableToken.void fun _ => rfl
  have hinner : ∀ j, i ≤ j → c.ReadsAt j .closing Eq
      (accept "$" >>= fun b => if b then computedVariable r n else variableToken >>= fun _ => pure ())
      (accept "$" >>= fun b => if b then computedVariable r' m else variableToken >>= fun _ => pure ()) := by
    intro j hij
    exact .mono (.accept "$" (fun k hjk => hrec k (Nat.lt_of_le_of_lt hij hjk)) fun k _ => hname k)
      (by decide)
  have hbraced : c.Reads .closing Eq
      (r.expr >>= fun _ => expect "\x7d") (r'.expr >>= fun _ => expect "\x7d") :=
    .mono (hr.expr.bind fun _ => reads_expect "\x7d") (by decide)
  exact .mono (.accept "\x7b" (fun j _ => hbraced j) hinner) (by decide)

/-- The name of a member is a word, a variable or an expression in braces. -/
theorem reads_memberName (hr : c.ReadsRules r r') :
    c.Reads .closing Eq (memberName r) (memberName r') := by
  have hplain : c.Reads .closing Eq
      (peek >>= fun t => if t.kind == .variable then variableToken >>= fun _ => pure ()
        else word >>= fun _ => pure ())
      (peek >>= fun t => if t.kind == .variable then variableToken >>= fun _ => pure ()
        else word >>= fun _ => pure ()) :=
    .mono (.bind_rel reads_peek_moved .refl fun t t' ⟨line, h⟩ => by
      rw [h]
      exact .ite (fun _ => reads_variableToken.void fun _ => rfl)
        fun _ => reads_word.void fun _ => rfl) (by decide)
  have hbraced : c.Reads .closing Eq
      (r.expr >>= fun _ => expect "\x7d") (r'.expr >>= fun _ => expect "\x7d") :=
    .mono (hr.expr.bind fun _ => reads_expect "\x7d") (by decide)
  exact .mono (.accept "\x7b" hbraced (.accept "$" (reads_computedVariable hr) hplain)) (by decide)

/-- Parts of a template go on until one without an expression behind it. -/
theorem reads_templateParts (hr : c.ReadsRules r r') :
    c.Reads .closing Eq (get >>= fun s => templateParts r s.rest.length)
      (get >>= fun s => templateParts r' s.rest.length) := by
  refine .of_step fun n m i hrec => ?_
  refine .mono (g := Grade.moving.andThen (Grade.loose.andThen .closing)) ?_ (by decide)
  refine (hr.expr i).bind_at fun j hij hj _ =>
    (reads_peek_moved j).bind_rel .refl fun k hjk _ t t' ht => ?_
  obtain ⟨line, rfl⟩ := ht
  dsimp only
  split
  · exact reads_advance.void .refl k
  · exact .mono ((reads_advance k).bind_rel .refl fun l hkl _ _ _ _ =>
      hrec l (Nat.lt_of_lt_of_le (Nat.lt_of_lt_of_le (hj rfl) hjk) hkl)) (by decide)
  · exact reads_fail k

/-- An element of a list is a value, perhaps behind a key or dots. -/
theorem reads_element (hr : c.ReadsRules r r') : c.Reads .loose Eq (element r) (element r') := by
  have hvalue : c.Reads .loose Eq
      (accept "&" >>= fun _ => r.expr >>= fun _ => pure ())
      (accept "&" >>= fun _ => r'.expr >>= fun _ => pure ()) :=
    .mono ((reads_accept "&").bind fun _ => hr.expr.void fun _ => rfl) (by decide)
  exact .mono ((reads_atSymbol ",").bind fun _ => .ite (fun _ => (reads_accept "...").bind fun _ =>
    (reads_accept "&").bind fun _ => hr.expr.bind fun _ => .accept "=>" hvalue (.of_pure rfl))
      fun _ => .of_pure rfl) (by decide)

/-- Elements stand in brackets, and some may be left out. -/
theorem reads_elements (hr : c.ReadsRules r r') (openSymbol close : String) :
    c.Reads .closing Eq (elements r openSymbol close) (elements r' openSymbol close) :=
  (reads_bracketed openSymbol close (reads_element hr)).void fun _ => rfl

/-! ## Functions and classes without names -/

/-- What a function takes from outside stands in parentheses behind a keyword. -/
theorem reads_captures : c.Reads .strict Eq captures captures := by
  have hcapture : c.Reads .closing Eq capture capture :=
    .mono ((reads_accept "&").bind fun _ => reads_variableToken.void fun _ => rfl) (by decide)
  have hall := reads_bracketed "(" ")" (hcapture.mono (by decide))
  exact .mono (.acceptKeyword (by decide) (by decide) (hall.void fun _ => rfl) (.of_pure rfl))
    (by decide)

/-- A function without a name has a body in braces, or an expression behind an arrow. -/
theorem reads_closure (hr : c.ReadsRules r r') : c.Reads .moving Eq (closure r) (closure r') := by
  have hshort : c.Reads .moving Eq
      (accept "&" >>= fun _ => parameters r >>= fun _ => returnType >>= fun _ => expect "=>" >>= fun _ =>
        r.expr >>= fun _ => pure ())
      (accept "&" >>= fun _ => parameters r' >>= fun _ => returnType >>= fun _ => expect "=>" >>= fun _ =>
        r'.expr >>= fun _ => pure ()) :=
    .mono ((reads_accept "&").bind fun _ => (reads_parameters hr).bind fun _ =>
      reads_returnType.bind fun _ => (reads_expect "=>").bind fun _ => hr.expr.void fun _ => rfl)
      (by decide)
  have hlong : c.Reads .closing Eq
      (expectKeyword "function" >>= fun _ => accept "&" >>= fun _ => parameters r >>= fun _ =>
        captures >>= fun _ => returnType >>= fun _ => block r >>= fun _ => pure ())
      (expectKeyword "function" >>= fun _ => accept "&" >>= fun _ => parameters r' >>= fun _ =>
        captures >>= fun _ => returnType >>= fun _ => block r' >>= fun _ => pure ()) :=
    .mono ((reads_expectKeyword (by decide) (by decide)).bind fun _ => (reads_accept "&").bind fun _ =>
      (reads_parameters hr).bind fun _ => reads_captures.bind fun _ => reads_returnType.bind fun _ =>
        (reads_block hr).void Stmt.moved_refl) (by decide)
  exact .mono (.acceptKeyword (by decide) (by decide) hshort hlong) (by decide)

/-- A class without a name is closed by the brace of its members. -/
theorem reads_anonymousClass (hr : c.ReadsRules r r') :
    c.Reads .closing Eq (anonymousClass r) (anonymousClass r') :=
  .mono ((reads_expectKeyword (by decide) (by decide)).bind fun _ =>
    (reads_argumentsIfAny hr).bind fun _ => (reads_namesAfter (by decide) (by decide)).bind fun _ =>
      (reads_namesAfter (by decide) (by decide)).bind fun _ => (reads_members hr).void fun _ => rfl)
    (by decide)

/-- A path to a class goes on by members and items. -/
theorem reads_creationPath (hr : c.ReadsRules r r') :
    c.Reads .loose Eq (get >>= fun s => creationPath r s.rest.length)
      (get >>= fun s => creationPath r' s.rest.length) := by
  -- On the tokens left: the path goes on with itself only behind a token that it has read.
  refine .of_step fun n m i hrec => ?_
  have hstatic : ∀ j, i ≤ j → c.ReadsAt j .loose Eq
      (atSymbol "::" >>= fun b => peekAt 1 >>= fun t => if b && t.kind == .variable then
        advance >>= fun _ => advance >>= fun _ => creationPath r n else pure ())
      (atSymbol "::" >>= fun b => peekAt 1 >>= fun t => if b && t.kind == .variable then
        advance >>= fun _ => advance >>= fun _ => creationPath r' m else pure ()) := by
    intro j hij
    exact .mono ((reads_atSymbol "::" j).bind_at fun k hjk _ _ =>
      (reads_peekAt_one k).bind_rel Meets.refl fun l hkl _ t t' ht => by
        rw [ht.kind_eq (by decide) (by decide)]
        exact .ite (fun _ => (reads_advance l).bind_rel .refl fun l' hl _ _ _ _ =>
          (reads_advance l').bind_rel .refl fun l'' _ hl'' _ _ _ =>
            hrec l'' (by have := hl'' rfl; omega)) fun _ => .of_pure rfl) (by decide)
  have hindex : ∀ j, i < j → c.ReadsAt j .loose Eq
      (unlessSymbol "]" r.expr >>= fun _ => expect "]" >>= fun _ => creationPath r n)
      (unlessSymbol "]" r'.expr >>= fun _ => expect "]" >>= fun _ => creationPath r' m) := by
    intro j hij
    exact .mono ((reads_unlessSymbol "]" (hr.expr.mono (by decide)) j).bind_at fun k hjk _ _ =>
      (reads_expect "]" k).bind_at fun l hkl _ _ => hrec l (by omega)) (by decide)
  have hmember : ∀ j, i ≤ j → c.ReadsAt j .loose Eq
      (advance >>= fun _ => memberName r >>= fun _ => creationPath r n)
      (advance >>= fun _ => memberName r' >>= fun _ => creationPath r' m) := by
    intro j hij
    exact .mono ((reads_advance j).bind_rel .refl fun k hjk hk _ _ _ =>
      (reads_memberName hr k).bind_at fun l hkl _ _ => hrec l (by have := hk rfl; omega)) (by decide)
  -- A member comes first, then an index, then a static variable, as the path asks for them.
  exact .mono ((reads_atSymbol "->" i).bind_at fun j hij _ _ =>
    (reads_atSymbol "?->" j).bind_at fun k hjk _ _ =>
      .ite (fun _ => hmember k (Nat.le_trans hij hjk)) fun _ =>
        .accept "[" (fun l hkl => hindex l (by omega)) fun l hkl => hstatic l (by omega)) (by decide)

/-- Modifiers of a class without a name end at the first other word. -/
theorem reads_anonymousModifiers : c.Reads .loose Eq anonymousModifiers anonymousModifiers :=
  .mono (.bind_rel reads_peek_moved .refl fun t t' ⟨line, h⟩ =>
    .bind_rel reads_peekAt_one Meets.refl fun u u' hu => by
      rw [h, hu.keyword_eq (by decide) (by decide)]
      exact .ite (fun _ => reads_modifiers.void fun _ => rfl) fun _ => .of_pure rfl) (by decide)

/-- The name of a class that is created is read to its end, or is a keyword. -/
theorem reads_className : c.Reads .moving Eq className className := by
  have hname : c.Reads .moving Eq (Parser.qualifiedName >>= fun _ => pure ()) (Parser.qualifiedName >>= fun _ => pure ()) :=
    reads_qualifiedName.void fun _ => rfl
  have hrelative : c.Reads .moving Eq
      (advance >>= fun _ => expect "\\" >>= fun _ => Parser.qualifiedName >>= fun _ => pure ())
      (advance >>= fun _ => expect "\\" >>= fun _ => Parser.qualifiedName >>= fun _ => pure ()) :=
    .mono (reads_advance.bind_rel .refl fun _ _ _ => (reads_expect "\\").bind fun _ => hname)
      (by decide)
  have hkeyword : c.Reads .loose Eq (atKeyword "namespace") (atKeyword "namespace") :=
    .mono (.bind_rel reads_peek_moved .refl fun _ _ ⟨_, h⟩ => .of_pure (by rw [h]; rfl)) (by decide)
  exact .mono (hkeyword.bind fun _ => .ite (fun _ => hrelative) fun _ => hname) (by decide)

/-- The class that is created is named, or computed. -/
theorem reads_createdClass (hr : c.ReadsRules r r') :
    c.Reads .moving Eq (createdClass r) (createdClass r') := by
  have hcomputed : c.Reads .moving Eq
      (accept "$" >>= fun b =>
        if b then get >>= fun s => computedVariable r s.rest.length else className)
      (accept "$" >>= fun b =>
        if b then get >>= fun s => computedVariable r' s.rest.length else className) :=
    .mono (.accept "$" (reads_computedVariable hr) reads_className) (by decide)
  have hvariable : c.Reads .moving Eq
      (peek >>= fun t => if t.kind == .variable then advance >>= fun _ => pure () else
        accept "$" >>= fun b =>
          if b then get >>= fun s => computedVariable r s.rest.length else className)
      (peek >>= fun t => if t.kind == .variable then advance >>= fun _ => pure () else
        accept "$" >>= fun b =>
          if b then get >>= fun s => computedVariable r' s.rest.length else className) :=
    .mono (.bind_rel reads_peek_moved .refl fun t t' ⟨line, h⟩ => by
      rw [h]
      exact .ite (fun _ => reads_advance.void .refl) fun _ => hcomputed) (by decide)
  exact .mono (.accept "(" (hr.expr.bind fun _ => reads_expect ")") hvariable) (by decide)

/-- Arguments may follow it. -/
theorem reads_createdObject (hr : c.ReadsRules r r') :
    c.Reads .moving Eq (createdObject r) (createdObject r') := by
  have hpath : c.Reads .loose Eq
      (get >>= fun s => creationPath r s.rest.length >>= fun _ => argumentsIfAny r)
      (get >>= fun s => creationPath r' s.rest.length >>= fun _ => argumentsIfAny r') :=
    .mono (.length_bind (reads_creationPath hr) fun _ => reads_argumentsIfAny hr) (by decide)
  exact .mono ((reads_createdClass hr).bind fun _ => hpath) (by decide)

/-- A class without a name is created as well. -/
theorem reads_creation (hr : c.ReadsRules r r') :
    c.Reads .moving Eq (creation r) (creation r') :=
  .mono ((reads_attributes hr).bind fun _ => reads_anonymousModifiers.bind fun _ =>
    (reads_atKeyword (by decide) (by decide)).bind fun _ =>
      .ite (fun _ => reads_anonymousClass hr) fun _ => reads_createdObject hr) (by decide)

/-! ## Other atoms that start with a word -/

/-- The conditions of an arm are expressions, or a keyword. -/
theorem reads_matchConditions (hr : c.ReadsRules r r') :
    c.Reads .loose Eq (matchConditions r) (matchConditions r') := by
  have hvalues : c.Reads .loose Eq
      (get >>= fun s => itemsFrom "=>" r.expr s.rest.length >>= fun _ => pure ())
      (get >>= fun s => itemsFrom "=>" r'.expr s.rest.length >>= fun _ => pure ()) :=
    .mono (.length_bind (reads_itemsFrom "=>" (hr.expr.mono (by decide))) fun _ => .of_pure rfl)
      (by decide)
  have hdefault : c.Reads .loose Eq (advance >>= fun _ => accept "," >>= fun _ => pure ())
      (advance >>= fun _ => accept "," >>= fun _ => pure ()) :=
    .mono (reads_advance.bind_rel .refl fun _ _ _ => (reads_accept ",").void fun _ => rfl) (by decide)
  exact .mono (.bind_rel reads_peekAt_one Meets.refl fun u u' hu => by
    rw [hu.isSymbol_eq, hu.isSymbol_eq]
    exact (reads_atKeyword (by decide) (by decide)).bind fun _ =>
      .ite (fun _ => hdefault) fun _ => hvalues) (by decide)

/-- An arm is its conditions, an arrow and a value. -/
theorem reads_matchArm (hr : c.ReadsRules r r') : c.Reads .moving Eq (matchArm r) (matchArm r') :=
  .mono ((reads_matchConditions hr).bind fun _ => (reads_expect "=>").bind fun _ =>
    hr.expr.void fun _ => rfl) (by decide)

/-- Arms stand in braces. -/
theorem reads_matchBody (hr : c.ReadsRules r r') : c.Reads .closing Eq (matchBody r) (matchBody r') :=
  .mono ((reads_expect "(").bind fun _ => hr.expr.bind fun _ => (reads_expect ")").bind fun _ =>
    (reads_bracketed "\x7b" "\x7d" ((reads_matchArm hr).mono (by decide))).void fun _ => rfl) (by decide)

/-- A value may stand behind its key. -/
theorem reads_keyedValue (hr : c.ReadsRules r r') :
    c.Reads .moving Eq (keyedValue r) (keyedValue r') :=
  .mono (hr.expr.bind fun _ => .accept "=>" (hr.expr.void fun _ => rfl) (.of_pure rfl)) (by decide)

/-- What is yielded may be missing. -/
theorem reads_yielded (hr : c.ReadsRules r r') : c.Reads .loose Eq (yielded r) (yielded r') := by
  have hend : c.Reads .loose Eq atEnd atEnd :=
    .mono (.bind_rel reads_peek_moved .refl fun _ _ ⟨_, h⟩ => .of_pure (by rw [h]; rfl)) (by decide)
  exact .mono (hend.bind fun _ => .ite (fun _ =>
    (reads_acceptKeyword (by decide) (by decide)).bind fun _ => reads_keyedValue hr)
      fun _ => .of_pure rfl) (by decide)

/-- A name by itself is an expression. -/
theorem reads_nameAtom : c.Reads .moving Eq (Parser.qualifiedName >>= fun text => pure (Expr.name text))
    (Parser.qualifiedName >>= fun text => pure (Expr.name text)) :=
  .mono (reads_qualifiedName.bind fun _ => .of_pure rfl) (by decide)

/-- A token, what is read behind it, and an expression that nothing is kept of. -/
theorem reads_behind {p p' : Parser α} (e : Expr) (h : c.Reads .loose Eq p p') :
    c.Reads .moving Eq (advance >>= fun _ => p >>= fun _ => pure e)
      (advance >>= fun _ => p' >>= fun _ => pure e) :=
  .mono (reads_advance.bind_rel .refl fun _ _ _ => h.bind fun _ => .of_pure rfl) (by decide)

/-- What a word begins is seen by the word. -/
theorem reads_wordAtom (hr : c.ReadsRules r r') :
    c.Reads .moving Eq (wordAtom r) (wordAtom r') := by
  -- The parts that one word alone does not begin, each by the lemmas of its own parts.
  have hclosure : c.Reads .moving Eq (closure r >>= fun _ => pure Expr.other)
      (closure r' >>= fun _ => pure Expr.other) :=
    .mono ((reads_closure hr).bind fun _ => .of_pure rfl) (by decide)
  have hrelative : c.Reads .moving Eq
      (sourceOf (advance >>= fun _ => Parser.qualifiedName) >>= fun text => pure (Expr.name text))
      (sourceOf (advance >>= fun _ => Parser.qualifiedName) >>= fun text => pure (Expr.name text)) :=
    .mono ((reads_sourceOf (reads_advance.bind_rel .refl fun _ _ _ => reads_qualifiedName)).bind
      fun _ => .of_pure rfl) (by decide)
  refine .mono (.bind_rel reads_peekAt_one Meets.refl fun u u' hu =>
    .bind_rel reads_peek_moved .refl fun t t' ⟨line, h⟩ => (show c.Reads .moving Eq _ _ from ?_))
    (by decide)
  rw [show t'.keyword = t.keyword by rw [h]; rfl]
  -- By the keyword, which is the same on both sides; the token behind it decides the rest.
  split
  · exact reads_behind .other ((reads_creation hr).mono (by decide))
  · exact hclosure
  · exact hclosure
  · rw [hu.keyword_eq (by decide) (by decide), hu.keyword_eq (by decide) (by decide)]
    exact .mono (.ite (fun _ => reads_behind .other ((reads_closure hr).mono (by decide)))
      fun _ => reads_nameAtom) (by decide)
  · exact reads_behind .other ((reads_matchBody hr).mono (by decide))
  · exact reads_behind .other (hr.expr.mono (by decide))
  · exact reads_behind .other (reads_yielded hr)
  · rw [hu.isSymbol_eq]
    exact .mono (.ite (fun _ => reads_behind .place ((reads_elements hr "(" ")").mono (by decide)))
      fun _ => reads_nameAtom) (by decide)
  · rw [hu.isSymbol_eq]
    exact .mono (.ite (fun _ => reads_behind .group ((reads_elements hr "(" ")").mono (by decide)))
      fun _ => reads_nameAtom) (by decide)
  · rw [hu.isSymbol_eq]
    exact .mono (.ite (fun _ => hrelative) fun _ => reads_fail) (by decide)
  · exact reads_nameAtom

/-! ## Operands -/

/-- A token by itself is an expression, whatever line it is on. -/
theorem reads_token (e : Token → Expr) (h : ∀ t line, e { t with line } = e t) :
    c.Reads .moving Eq (advance >>= fun t => pure (e t)) (advance >>= fun t => pure (e t)) :=
  .mono (reads_advance.bind_rel .refl fun t _ ⟨line, h'⟩ => .of_pure (by rw [h', h t line])) (by decide)

/-- A template is written as it stands there. -/
theorem reads_templateAtom (hr : c.ReadsRules r r') (quote : Quote) :
    c.Reads .moving Eq
      (sourceOf (advance >>= fun _ => get >>= fun s => templateParts r s.rest.length) >>= fun text =>
        pure (if quote == .double then Expr.text text else .group))
      (sourceOf (advance >>= fun _ => get >>= fun s => templateParts r' s.rest.length) >>= fun text =>
        pure (if quote == .double then Expr.text text else .group)) :=
  .mono ((reads_sourceOf (reads_advance.bind_rel .refl fun _ _ _ => reads_templateParts hr)).bind
    fun _ => .of_pure rfl) (by decide)

/-- An expression in parentheses. -/
theorem reads_groupAtom (hr : c.ReadsRules r r') :
    c.Reads .moving Eq (advance >>= fun _ => r.expr >>= fun _ => expect ")" >>= fun _ => pure Expr.group)
      (advance >>= fun _ => r'.expr >>= fun _ => expect ")" >>= fun _ => pure Expr.group) :=
  .mono (reads_advance.bind_rel .refl fun _ _ _ => hr.expr.bind fun _ =>
    (reads_expect ")").bind fun _ => .of_pure rfl) (by decide)

/-- A variable whose name is computed. -/
theorem reads_computedAtom (hr : c.ReadsRules r r') :
    c.Reads .moving Eq
      (advance >>= fun _ => get >>= fun s => computedVariable r s.rest.length >>= fun _ => pure Expr.place)
      (advance >>= fun _ => get >>= fun s => computedVariable r' s.rest.length >>= fun _ => pure Expr.place) :=
  .mono (reads_advance.bind_rel .refl fun _ _ _ =>
    .length_bind (reads_computedVariable hr) fun _ => .of_pure rfl) (by decide)

/-- What an operand begins with is seen by its first token. -/
theorem reads_atom (hr : c.ReadsRules r r') : c.Reads .moving Eq (atom r) (atom r') := by
  have helements : c.Reads .moving Eq (elements r "[" "]" >>= fun _ => pure Expr.place)
      (elements r' "[" "]" >>= fun _ => pure Expr.place) :=
    .mono ((reads_elements hr "[" "]").bind fun _ => .of_pure rfl) (by decide)
  have hclosure : c.Reads .moving Eq
      (attributes r >>= fun _ => acceptKeyword "static" >>= fun _ => closure r >>= fun _ => pure Expr.other)
      (attributes r' >>= fun _ => acceptKeyword "static" >>= fun _ => closure r' >>= fun _ =>
        pure Expr.other) :=
    .mono ((reads_attributes hr).bind fun _ => (reads_acceptKeyword (by decide) (by decide)).bind fun _ =>
      (reads_closure hr).bind fun _ => .of_pure rfl) (by decide)
  refine .mono (.bind_rel reads_peek_moved .refl fun t t' ⟨line, h⟩ =>
    (show c.Reads .moving Eq _ _ from ?_)) (by decide)
  subst h
  dsimp only
  -- By the kind of the token, and a symbol by its text.
  split
  · exact reads_wordAtom hr
  · exact reads_token (fun _ => .place) fun _ _ => rfl
  · exact reads_token (fun t => .number t.text) fun _ _ => rfl
  · exact reads_token (fun t => .text t.text) fun _ _ => rfl
  · exact reads_token (fun t => .text t.text) fun _ _ => rfl
  · exact reads_token (fun _ => .group) fun _ _ => rfl
  · exact reads_token (fun _ => .group) fun _ _ => rfl
  · exact reads_templateAtom hr _
  · split
    · exact reads_nameAtom
    · exact reads_computedAtom hr
    · exact reads_groupAtom hr
    · exact helements
    · exact hclosure
    · exact reads_fail.mono (by decide)
  · exact reads_fail.mono (by decide)

/-- A member of a class is a constant, a property or a call. -/
theorem reads_scopedSuffix (hr : c.ReadsRules r r') (scope : String) :
    c.Reads .loose Eq (scopedSuffix r scope) (scopedSuffix r' scope) := by
  have hend : ∀ (t : Token) (method : String), c.Reads .strict Eq
      (atSymbol "(" >>= fun b =>
        if b then arguments r >>= fun items => pure (Expr.staticCall scope method items)
        else if t.kind == .variable || t.isSymbol "$" then pure .place else pure .group)
      (atSymbol "(" >>= fun b =>
        if b then arguments r' >>= fun items => pure (Expr.staticCall scope method items)
        else if t.kind == .variable || t.isSymbol "$" then pure .place else pure .group) :=
    fun t method => .mono ((reads_atSymbol "(").bind fun _ =>
      .ite (fun _ => (reads_arguments hr).bind fun _ => .of_pure rfl) fun _ =>
        .ite (fun _ => .of_pure rfl) fun _ => .of_pure rfl) (by decide)
  exact .mono (.bind_rel reads_peek_moved .refl fun t t' ⟨line, h⟩ => by
    rw [h]
    exact (reads_sourceOf (reads_memberName hr)).bind fun _ => hend t _) (by decide)

/-- Suffixes go on until a token that begins none; the text from the start is kept. -/
theorem readsAt_suffixes (hr : c.ReadsRules r r') {start start' : ParserState} {k : Nat}
    (hs : c.Alone k start) (ht : c.Whole k start') :
    ∀ n m i, c.part.length - i < n → c.part.length - i < m → ∀ e,
      c.ReadsAt i .loose Eq (suffixes r start n e) (suffixes r' start' m e) := by
  -- On the tokens left, as each suffix takes at least one; what was read before is kept in `e`.
  refine readsAt_of_step (fun e n => suffixes r start n e) (fun e n => suffixes r' start' n e)
    fun n m i hrec e => ?_
  -- A token is read first, so that what follows it starts further on.
  have hadvance : ∀ j, i ≤ j → ∀ {p p' : Parser Expr}, (∀ l, i < l → c.ReadsAt l .loose Eq p p') →
      c.ReadsAt j .loose Eq (advance >>= fun _ => p) (advance >>= fun _ => p') := by
    intro j hij p p' h
    exact .mono ((reads_advance j).bind_rel .refl fun l _ hl _ _ _ =>
      h l (Nat.lt_of_le_of_lt hij (hl rfl))) (by decide)
  have hmember : ∀ l, i < l → c.ReadsAt l .loose Eq
      (memberName r >>= fun _ => atSymbol "(" >>= fun b =>
        if b then arguments r >>= fun items => suffixes r start n (.call "" items)
        else suffixes r start n .place)
      (memberName r' >>= fun _ => atSymbol "(" >>= fun b =>
        if b then arguments r' >>= fun items => suffixes r' start' m (.call "" items)
        else suffixes r' start' m .place) := by
    intro l hl
    exact .mono ((reads_memberName hr l).bind_at fun l' hl' _ _ =>
      (reads_atSymbol "(" l').bind_at fun l'' hl'' _ _ =>
        .ite (fun _ => (reads_arguments hr l'').bind_at fun _ h _ items => hrec _ _ (by omega))
          fun _ => hrec .place l'' (by omega)) (by decide)
  refine .mono ((reads_peek_moved i).bind_rel .refl fun j hij _ t t' ⟨line, h⟩ =>
    (show c.ReadsAt j .loose Eq _ _ from ?_)) (by decide)
  subst h
  -- Behind markup an expression goes no further.
  refine .mono (.ite (fun _ => .of_pure rfl) fun _ => (show c.ReadsAt j .loose Eq _ _ from ?_))
    (by decide)
  dsimp only
  -- By the symbol that begins the suffix; without one the expression ends.
  split
  · exact .mono ((reads_arguments hr j).bind_at fun l _ hl items =>
      hrec _ l (Nat.lt_of_le_of_lt hij (hl rfl))) (by decide)
  · exact hadvance j hij fun l hl => .mono
      ((reads_unlessSymbol "]" (hr.expr.mono (by decide)) l).bind_at fun l' hl' _ _ =>
        (reads_expect "]" l').bind_at fun l'' hl'' _ _ => hrec .place l'' (by omega)) (by decide)
  · exact .mono (.ite (fun _ => hadvance j hij fun l hl => .mono ((hr.expr l).bind_at fun l' hl' _ _ =>
      (reads_expect "\x7d" l').bind_at fun l'' hl'' _ _ => hrec .place l'' (by omega)) (by decide))
        fun _ => .of_pure rfl) (by decide)
  · exact hadvance j hij hmember
  · exact hadvance j hij hmember
  -- A scoped call keeps the text since the start, which both sides took at the same place.
  · refine .get_bind fun s t hs' ht' => ?_
    rw [text_since hs ht hs' ht']
    exact hadvance j hij fun l hl => .mono ((reads_scopedSuffix hr _ l).bind_at fun l' hl' _ e =>
      hrec e l' (by omega)) (by decide)
  · exact hadvance j hij fun _ _ => (ReadsAt.of_pure rfl).mono (by decide)
  · exact hadvance j hij fun _ _ => (ReadsAt.of_pure rfl).mono (by decide)
  · exact (ReadsAt.of_pure rfl).mono (by decide)

/-- A cast is told from parentheses by the word in them and what closes it. -/
theorem reads_atCast : c.Reads .loose Eq atCast atCast := by
  refine reads_test "(" (fun u v => castWords.contains u.keyword && v.isSymbol ")") (by decide)
    (fun s => ?_) ?_
  · rw [← Bool.and_assoc]
    rfl
  · rintro u _ v v' ⟨line, rfl⟩ hv
    rw [hv.isSymbol_eq]
    rfl

/-- An atom and its suffixes. -/
theorem reads_suffixedAtom (hr : c.ReadsRules r r') :
    c.Reads .moving Eq
      (get >>= fun start => atom r >>= fun e => get >>= fun s =>
        suffixes r start s.rest.length e >>= fun e => pure (false, e))
      (get >>= fun start => atom r' >>= fun e => get >>= fun s =>
        suffixes r' start s.rest.length e >>= fun e => pure (false, e)) := by
  intro i
  refine .get_bind fun start start' hs ht => ?_
  have hsuffixes : ∀ e, c.Reads .loose Eq
      (get >>= fun s => suffixes r start s.rest.length e >>= fun e => pure (false, e))
      (get >>= fun s => suffixes r' start' s.rest.length e >>= fun e => pure (false, e)) := by
    intro e
    have hall : c.Reads .loose Eq (get >>= fun s => suffixes r start s.rest.length e)
        (get >>= fun s => suffixes r' start' s.rest.length e) :=
      .of_length (fun n => suffixes r start n e) (fun n => suffixes r' start' n e)
        fun n m j hn hm => readsAt_suffixes hr hs ht n m j hn hm e
    have h := hall.bind fun e => Reads.of_pure (c := c) (rfl : (false, e) = (false, e))
    rw [bind_assoc, bind_assoc] at h
    exact h.mono (by decide)
  exact .mono ((reads_atom hr i).bind_at fun j _ _ e => hsuffixes e j) (by decide)

/-- An operand has signs in front and suffixes behind. -/
theorem reads_operand (hr : c.ReadsRules r r') :
    c.Reads .moving Eq (get >>= fun s => operand r s.rest.length)
      (get >>= fun s => operand r' s.rest.length) := by
  -- On the tokens left: a prefix or a cast is read, and then an operand again.
  refine .of_step fun n m i hrec => ?_
  have hprefixed : ∀ l, i < l → c.ReadsAt l .moving Eq
      (operand r n >>= fun x => pure (true, x.2)) (operand r' m >>= fun x => pure (true, x.2)) :=
    fun l hl => .mono ((hrec l hl).bind_at fun _ _ _ _ => .of_pure rfl) (by decide)
  have hcast : ∀ j, i ≤ j → c.ReadsAt j .moving Eq
      (advance >>= fun _ => advance >>= fun _ => advance >>= fun _ => operand r n >>= fun x =>
        pure (true, x.2))
      (advance >>= fun _ => advance >>= fun _ => advance >>= fun _ => operand r' m >>= fun x =>
        pure (true, x.2)) := by
    intro j hij
    exact .mono ((reads_advance j).bind_rel .refl fun k _ hk _ _ _ =>
      (reads_advance k).bind_rel .refl fun l hkl _ _ _ _ =>
        (reads_advance l).bind_rel .refl fun l' hl' _ _ _ _ =>
          hprefixed l' (by have := hk rfl; omega)) (by decide)
  refine .mono ((reads_peek_moved i).bind_rel .refl fun j hij _ t t' ⟨line, h⟩ =>
    (show c.ReadsAt j .moving Eq _ _ from ?_)) (by decide)
  -- A prefix takes one token, a cast three; else the operand is an atom with its suffixes.
  subst h
  exact .mono (.ite (fun _ => (reads_advance j).bind_rel .refl fun l _ hl _ _ _ =>
    hprefixed l (Nat.lt_of_le_of_lt hij (hl rfl))) fun _ => (reads_atCast j).bind_at fun l hjl _ _ =>
      .ite (fun _ => hcast l (Nat.le_trans hij hjl)) fun _ => reads_suffixedAtom hr l) (by decide)

/-- The operand behind an operator takes a token. -/
theorem reads_nextOperand (hr : c.ReadsRules r r') :
    c.Reads .moving Eq (nextOperand r) (nextOperand r') :=
  .mono (.length_bind (reads_operand hr) fun _ => .of_pure rfl) (by decide)

/-- The middle of a choice ends with a colon. -/
theorem reads_choiceMiddle (hr : c.ReadsRules r r') :
    c.Reads .closing Eq (choiceMiddle r) (choiceMiddle r') :=
  .mono (.accept ":" (.of_pure rfl) (hr.expr.bind fun _ => reads_expect ":")) (by decide)

/-- Operators go on until a token that is none. -/
theorem readsAt_chain (hr : c.ReadsRules r r') :
    ∀ n m i, c.part.length - i < n → c.part.length - i < m → ∀ x : Expr × Expr,
      c.ReadsAt i .loose Eq (chain r x.1 x.2 n) (chain r' x.1 x.2 m) := by
  -- On the tokens left, as every operand takes one.
  refine readsAt_of_step (fun (x : Expr × Expr) n => chain r x.1 x.2 n)
    (fun x n => chain r' x.1 x.2 n) fun n m i hrec x => ?_
  have hnext : ∀ l, i ≤ l → c.ReadsAt l .loose Eq
      (nextOperand r >>= fun e => chain r e .other n) (nextOperand r' >>= fun e => chain r' e .other m) :=
    fun l hl => .mono ((reads_nextOperand hr l).bind_at fun l' _ hl' e =>
      hrec (e, .other) l' (Nat.lt_of_le_of_lt hl (hl' rfl))) (by decide)
  have hoperator : ∀ l, i ≤ l → c.ReadsAt l .loose Eq
      (advance >>= fun _ => nextOperand r >>= fun e => chain r e .other n)
      (advance >>= fun _ => nextOperand r' >>= fun e => chain r' e .other m) :=
    fun l hl => .mono ((reads_advance l).bind_rel .refl fun l' hl' _ _ _ _ =>
      hnext l' (Nat.le_trans hl hl')) (by decide)
  have hchoice : ∀ l, i ≤ l → c.ReadsAt l .loose Eq
      (advance >>= fun _ => choiceMiddle r >>= fun _ => nextOperand r >>= fun e => chain r e .other n)
      (advance >>= fun _ => choiceMiddle r' >>= fun _ => nextOperand r' >>= fun e =>
        chain r' e .other m) :=
    fun l hl => .mono ((reads_advance l).bind_rel .refl fun l' hl' _ _ _ _ =>
      (reads_choiceMiddle hr l').bind_at fun l'' hl'' _ _ => hnext l'' (by omega)) (by decide)
  refine .mono ((reads_peek_moved i).bind_rel .refl fun j hij _ t t' ⟨line, h⟩ =>
    (show c.ReadsAt j .loose Eq _ _ from ?_)) (by decide)
  subst h
  -- The operators in the order they are asked for; the chain ends when none of them stands here.
  exact .mono (.ite (fun _ => .of_pure rfl) fun _ => .ite (fun _ => hoperator j hij) fun _ =>
    .ite (fun _ => .ite (fun _ => hoperator j hij) fun _ => reads_fail j) fun _ =>
      .ite (fun _ => hchoice j hij) fun _ => .of_pure rfl) (by decide)

/-- An expression takes a token at least, and may go on behind the part. -/
theorem reads_expression (hr : c.ReadsRules r r') :
    c.Reads .moving Eq (expression r) (expression r') := by
  have hchain : ∀ x : Bool × Expr, c.Reads .loose Eq
      (get >>= fun s => chain r x.2 (if x.1 then .other else x.2) s.rest.length)
      (get >>= fun s => chain r' x.2 (if x.1 then .other else x.2) s.rest.length) :=
    fun x => .of_length (chain r x.2 _) (chain r' x.2 _) fun n m i hn hm =>
      readsAt_chain hr n m i hn hm (x.2, if x.1 then .other else x.2)
  exact .mono (.length_bind (reads_operand hr) fun x => hchain x) (by decide)

end ApiCatalog.Php.Seam
