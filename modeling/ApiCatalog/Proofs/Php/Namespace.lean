import ApiCatalog.Proofs.Php.Lexer.Seam
import ApiCatalog.Proofs.Php.Namespace.Segment
import Mathlib.Data.List.Chain

/-!
# Namespaces one after the other

A file of one opening tag and namespaces one after the other declares what the namespaces declare
alone in files of their own, in order: no import, name or comment of one is seen in another. The
text of a namespace that is read alone gives the same tokens in its place in the file, on other
lines; from them the same statements are read; and the namespace statement that comes next puts
everything in front of it out of force.
-/

open ApiCatalog.Php.Parser

namespace ApiCatalog.Php

/-! ## The text of a namespace -/

/-- A source file with the text behind its opening tag. -/
def inFile (text : List Char) : List Char := ['<', '?', 'p', 'h', 'p'] ++ text

theorem tokenize_inFile (text : List Char) : tokenize (inFile text) = tokensOf [] 1 text := rfl

/-- The text of a namespace and of what stands in it, alone behind an opening tag: what opens in
it, closes in it. -/
structure IsNamespace (text : List Char) : Prop where
  /-- The namespace statement comes first. -/
  starts : (tokenize (inFile text)).head?.any fun t => t.keyword == "namespace"
  /-- The tokens go to the end of the text. -/
  reads : (tokenize (inFile text)).getLast?.any fun t => t.kind == .stop
  /-- The last token ends a statement. -/
  ends : (tokenize (inFile text)).dropLast.getLast?.any Token.endsStatement
  /-- No closing tag stands in it. -/
  inside : ∀ t ∈ tokenize (inFile text), t.followsMarkup = false
  /-- As many texts with expressions open as close. -/
  texts : opensIn (tokenize (inFile text)) = closesIn (tokenize (inFile text))
  /-- No comment opens without an end. -/
  comments : NoOpenComment (tokenize (inFile text))

/-- A comment to the end of its line, behind the last token of the text, has that end in it. -/
def EndsLine (text : List Char) : Prop :=
  (tokenize (inFile text)).getLast?.all fun t => !t.lead.getLast?.any Trivia.isLineComment

instance (text : List Char) : Decidable (EndsLine text) := inferInstanceAs (Decidable (_ = true))

/-! ## Tokens -/

theorem isLast_of_mem (opened : List OpenTemplate) (cs : List Char) : ∀ (line : Nat) (ts : List Token)
    (stop : Token), tokensOf opened line cs = ts ++ [stop] → ∀ t ∈ ts, t.kind.isLast = false := by
  induction opened, cs using tokensOf_induction with
  | last opened cs hlast =>
    intro line ts stop h t ht
    rw [tokensOf_of_isLast hlast] at h
    have hts := congrArg List.length h
    rw [List.length_append, List.length_singleton, List.length_singleton] at hts
    rw [List.eq_nil_of_length_eq_zero (by omega : ts.length = 0)] at ht
    cases ht
  | more opened cs hmore ih =>
    intro line ts stop h t ht
    rw [tokensOf_of_more hmore] at h
    cases ts with
    | nil => cases ht
    | cons first ts =>
      obtain ⟨rfl, hrest⟩ := List.cons.inj h
      rcases List.mem_cons.1 ht with rfl | ht
      · exact hmore
      · exact ih _ ts stop hrest t ht

/-- The tokens of the text, its keyword and its end apart. -/
theorem IsNamespace.exists_segment {text : List Char} (h : IsNamespace text) :
    ∃ seg : Segment, seg.tokens = tokensOf [] 1 text := by
  obtain ⟨starts, reads, ends, inside, -, -⟩ := h
  rw [tokenize_inFile] at starts reads ends inside
  obtain ⟨stop, hstop, hkind⟩ := (Option.any_eq_true _ _).1 reads
  obtain ⟨last, hlast, hends⟩ := (Option.any_eq_true _ _).1 ends
  obtain ⟨before, htokens⟩ := List.getLast?_eq_some_iff.1 hstop
  rw [htokens, List.dropLast_concat] at hlast
  rw [htokens] at starts inside
  cases before with
  | nil => cases hlast
  | cons keyword part =>
    have hkeyword : keyword.keyword = "namespace" := by simpa using starts
    have hpart : part.getLast? = some last := by
      cases part with
      | nil =>
        -- The keyword is no end of a statement.
        obtain rfl : keyword = last := Option.some.inj hlast
        have hword := Seam.kind_of_keyword hkeyword (by decide)
        rw [(exists_isEnd hends).1] at hword
        cases hword
      | cons t part => rwa [List.getLast?_cons_cons] at hlast
    have hnotLast := isLast_of_mem [] text 1 _ stop htokens
    exact ⟨{
      keyword, part, stop
      keyword_eq := hkeyword
      stop_kind := beq_iff_eq.1 hkind
      kind_ne_stop := fun t ht => (TokenKind.isLast_eq_false.1 (hnotLast t (List.mem_cons_of_mem _ ht))).1
      inside := fun t ht => inside t (List.mem_cons_of_mem _ ht)
      ends := ⟨last, hpart, hends⟩ }, htokens.symm⟩

theorem Token.Moved.trans {t t' t'' : Token} (h : t.Moved t') (h' : t'.Moved t'') : t.Moved t'' := by
  obtain ⟨line, rfl⟩ := h
  obtain ⟨line', rfl⟩ := h'
  exact ⟨line', rfl⟩

theorem moved_trans {ts ts' ts'' : List Token} (h : List.Forall₂ Token.Moved ts ts')
    (h' : List.Forall₂ Token.Moved ts' ts'') : List.Forall₂ Token.Moved ts ts'' := by
  induction h generalizing ts'' with
  | nil => exact h'
  | cons ht _ ih =>
    cases h' with
    | cons ht' hrest => exact .cons (ht.trans ht') (ih hrest)

/-- Moved tokens one behind the other. -/
theorem exists_of_moved_append {ts more whole : List Token}
    (h : List.Forall₂ Token.Moved (ts ++ more) whole) :
    ∃ ts' more', whole = ts' ++ more' ∧ List.Forall₂ Token.Moved ts ts' ∧
      List.Forall₂ Token.Moved more more' :=
  ⟨whole.take ts.length, whole.drop ts.length, (List.take_append_drop ..).symm,
    (List.forall₂_take_append _ _ _ h.flip).flip, (List.forall₂_drop_append _ _ _ h.flip).flip⟩

theorem Joins.moved {segments : List Segment} {whole whole' : List Token} (h : Joins segments whole)
    (hmoved : List.Forall₂ Token.Moved whole whole') : Joins segments whole' := by
  induction h generalizing whole' with
  | nil hstop =>
    cases hmoved with
    | cons ht hrest =>
      cases hrest
      obtain ⟨line, rfl⟩ := ht
      exact .nil hstop
  | cons hkeyword hpart _ ih =>
    cases hmoved with
    | cons ht hmoved =>
      obtain ⟨line, rfl⟩ := ht
      obtain ⟨part', rest', rfl, hpart', hrest⟩ := exists_of_moved_append hmoved
      exact .cons hkeyword (moved_trans hpart hpart') (ih hrest)

theorem kind_symbolLexeme_nil (cs : List Char) :
    (symbolLexeme [] cs).kind = .symbol ∨ (symbolLexeme [] cs).kind = .broken := by
  unfold symbolLexeme
  split
  · exact .inr rfl
  · rename_i s rest _
    rcases symbolToken_cases [] s with ⟨opened', -, heq⟩ | ⟨quote, more, -, hnil, -⟩
    · exact .inl (by rw [heq])
    · cases hnil

/-- Where a colon comes first, no namespace does. -/
theorem head_ne_colon {segments : List Segment} {line : Nat} {cs : List Char}
    (h : Joins segments (tokensOf [] line cs)) : cs.head? ≠ some ':' := by
  intro hcolon
  obtain ⟨w, rfl⟩ := List.head?_eq_some_iff.1 hcolon
  obtain ⟨next, behind, htokens, hnext⟩ := h.exists_next
  obtain ⟨rest, hfirst⟩ := exists_tokensOf [] line (':' :: w)
  obtain ⟨rfl, -⟩ := List.cons.inj (hfirst.symm.trans htokens)
  have hlead : leadOf (':' :: w) = ([], ':' :: w) := leadOf_of_none (scanTrivia_of_isEnd rfl w)
  have hkind : (firstOf [] line (':' :: w)).kind = (symbolLexeme [] (':' :: w)).kind := by
    rw [firstOf, lexemeOf, hlead, scanToken_of_isEnd rfl]
  rw [hkind] at hnext
  rcases kind_symbolLexeme_nil (':' :: w) with hsymbol | hsymbol <;> rw [hsymbol] at hnext
  · rcases hnext with hstop | ⟨hword, -⟩
    · cases hstop
    · cases hword
  · rcases hnext with hstop | ⟨hword, -⟩
    · cases hstop
    · cases hword

/-- The last statement in the text of a namespace ends with no text with expressions open. -/
theorem IsNamespace.exists_endsAt {text : List Char} (h : IsNamespace text) {seg : Segment}
    (hseg : seg.tokens = tokensOf [] 1 text) : ∃ x e w line',
    EndsAt [] 1 text (seg.keyword :: seg.part) seg.stop x e w [] line' := by
  obtain ⟨-, -, -, inside, hopen, hcomments⟩ := h
  rw [tokenize_inFile, ← hseg] at inside hopen hcomments
  obtain ⟨last, hlast, hends⟩ := seg.ends
  obtain ⟨x, e, w, opened, line', hend⟩ := tokensOf_end [] text 1 (seg.keyword :: seg.part) seg.stop
    hseg.symm ⟨last, by rw [List.getLast?_cons, hlast]; rfl, hends⟩ seg.stop_kind
    (fun t ht => inside t (List.mem_append_left _ ht)) (List.isChain_append.1 hcomments).1 nofun
  have hclosed : opened = [] := by
    have hdepth := hend.depth
    rw [Segment.tokens, opensIn_concat_stop seg.stop_kind, closesIn_concat_stop seg.stop_kind] at hopen
    rw [hopen, List.length_nil] at hdepth
    have hlength : opened.length = 0 := by omega
    exact List.eq_nil_of_length_eq_zero hlength
  exact ⟨x, e, w, line', hclosed ▸ hend⟩

/-- The tokens of the text of a namespace are followed by those of what stands behind it. -/
theorem IsNamespace.joins {text behind : List Char} (h : IsNamespace text)
    (hline : behind ≠ [] → EndsLine text) {seg : Segment} {segments : List Segment}
    (hseg : seg.tokens = tokensOf [] 1 text)
    (hjoins : ∀ cs line, (leadOf cs).2 = (leadOf behind).2 → Joins segments (tokensOf [] line cs)) :
    ∀ cs line, (leadOf cs).2 = (leadOf (text ++ behind)).2 →
      Joins (seg :: segments) (tokensOf [] line cs) := by
  intro cs line hlead
  obtain ⟨x, e, w, line', hend⟩ := h.exists_endsAt hseg
  -- What stands behind the end of the last statement are blanks and comments, and then `behind`.
  have hbehind : (leadOf (w ++ behind)).2 = (leadOf behind).2 := by
    cases behind with
    | nil =>
      rw [List.append_nil, hend.behind]
      rfl
    | cons c behind =>
      have hline := hline (List.cons_ne_nil _ _)
      rw [EndsLine, tokenize_inFile, ← hseg, Segment.tokens, List.getLast?_concat] at hline
      have hinside := h.inside
      rw [tokenize_inFile, ← hseg] at hinside
      have hmarkup : seg.stop.followsMarkup = false :=
        hinside _ (List.mem_append_right _ (List.mem_singleton_self _))
      exact leadOf_append_right w _ _ hend.behind (Token.markup_notMem_lead hmarkup) (by simpa using hline)
  have hrest := hjoins (w ++ behind) line' hbehind
  have hwhole := hend.tokens (w ++ behind) (head_ne_colon hrest)
  have hlead' : (leadOf (x ++ e :: (w ++ behind))).2 = (leadOf cs).2 := by
    rw [hlead, hend.text]
    simp
  -- In its place in the file the keyword has another lead, and every token another line.
  obtain ⟨t, ts, t', ts', hfirst, hthis, hkind, htext, hmoved⟩ := tokensOf_of_lead hlead' line
  rw [hfirst, List.cons_append] at hwhole
  obtain ⟨rfl, rfl⟩ := List.cons.inj hwhole
  obtain ⟨part, rest, rfl, hpart, hmore⟩ := exists_of_moved_append hmoved
  rw [hthis, ← List.cons_append]
  have hkeyword : t'.keyword = "namespace" := by
    rw [← seg.keyword_eq, Token.keyword, Token.keyword, hkind, htext]
  exact .cons hkeyword hpart (hrest.moved hmore)

/-- The tokens of texts of namespaces one behind the other are those of each. -/
theorem joins_texts : ∀ {texts : List (List Char)}, (∀ text ∈ texts, IsNamespace text) →
    (∀ text ∈ texts.dropLast, EndsLine text) →
    ∃ segments, List.Forall₂ (fun (seg : Segment) text => seg.tokens = tokensOf [] 1 text) segments texts ∧
      ∀ cs line, (leadOf cs).2 = (leadOf texts.flatten).2 → Joins segments (tokensOf [] line cs) := by
  intro texts
  -- From the last text to the first, since the lead of a text is that of the text behind its gap.
  induction texts with
  | nil =>
    intro _ _
    refine ⟨[], .nil, fun cs line hlead => ?_⟩
    have hnil : (leadOf cs).2 = [] := hlead
    have hkind : (lexemeOf [] cs).kind = .stop := kind_lexemeOf_eq_stop.2 hnil
    rw [tokensOf_of_isLast (TokenKind.isLast_eq_true.2 (.inl hkind))]
    exact .nil hkind
  | cons text texts ih =>
    intro htexts hlines
    have htext := htexts text (List.mem_cons_self ..)
    -- A text with more behind it ends its line, so that no comment of it runs on.
    have hline : texts.flatten ≠ [] → EndsLine text := by
      cases texts with
      | nil => exact fun h => absurd rfl h
      | cons text' texts => exact fun _ => hlines _ (List.mem_cons_self ..)
    obtain ⟨segments, hsegments, hjoins⟩ := ih (fun text h => htexts text (List.mem_cons_of_mem _ h))
      fun text h => hlines text (by
        cases texts with
        | nil => cases h
        | cons text' texts => exact List.mem_cons_of_mem _ h)
    obtain ⟨seg, hseg⟩ := htext.exists_segment
    exact ⟨seg :: segments, .cons hseg hsegments, htext.joins hline hseg hjoins⟩

/-! ## Source files -/

theorem parse_eq_ok {source : List Char} {file : SourceFile} :
    Parser.parse source = .ok file ↔ ∃ stmts s',
      (manyFrom Seam.isStop (rules ((tokenize source).length + 1)).stmt (tokenize source).length).run
        { rest := tokenize source } = .ok (stmts, s') ∧
      file = { statements := stmts, tail := (Seam.ahead 0 s').lead } := by
  -- The file is the statements up to the stop, with the lead of the stop as its tail.
  have hfile : ∀ r : Rules, ∀ out, (sourceFile r).run { rest := tokenize source } = .ok out ↔
      ∃ stmts s', (manyFrom Seam.isStop r.stmt (tokenize source).length).run
          { rest := tokenize source } = .ok (stmts, s') ∧
        out = ({ statements := stmts, tail := (Seam.ahead 0 s').lead }, s') := by
    intro r out
    constructor
    · intro h
      obtain ⟨stmts, s', hrun, hpure⟩ := Seam.run_bind_eq_ok.1 h
      exact ⟨stmts, s', hrun, (Except.ok.inj hpure).symm⟩
    · rintro ⟨stmts, s', hrun, rfl⟩
      exact Seam.run_bind_eq_ok.2 ⟨stmts, s', hrun, rfl⟩
  constructor
  · intro h
    cases hout : (sourceFile (rules ((tokenize source).length + 1))).run { rest := tokenize source } with
    | error e => simp [Parser.parse, hout, bind, Except.bind] at h
    | ok out =>
      obtain ⟨stmts, s', hrun, rfl⟩ := (hfile _ _).1 hout
      refine ⟨stmts, s', hrun, ?_⟩
      simp [Parser.parse, hout, bind, Except.bind, pure, Except.pure] at h
      exact h.symm
  · rintro ⟨stmts, s', hrun, rfl⟩
    have hout := (hfile _ _).2 ⟨stmts, s', hrun, rfl⟩
    simp [Parser.parse, hout, bind, Except.bind, pure, Except.pure]

theorem reflect_eq_ok {source : List Char} {file : DeclaredFile} :
    reflect source = .ok file ↔ ∃ f, Parser.parse source = .ok f ∧ f.reflect = file := by
  rw [reflect]
  cases Parser.parse source <;> simp [Except.map]

/-- What a file with one segment declares, the segment does. -/
theorem Segment.declares_of_reflect {seg : Segment} {text : List Char}
    (hseg : seg.tokens = tokensOf [] 1 text) {file : DeclaredFile}
    (h : reflect (inFile text) = .ok file) : seg.Declares file.declarations.withoutLines := by
  obtain ⟨f, hparse, rfl⟩ := reflect_eq_ok.1 h
  obtain ⟨stmts, s', hrun, rfl⟩ := parse_eq_ok.1 hparse
  rw [tokenize_inFile, ← hseg] at hrun
  exact ⟨stmts, s', hrun, rfl⟩

/-- Namespaces do not leak into each other: a file of the texts of namespaces, one behind the
other, declares what they do alone in files of their own, in order and lines apart. -/
theorem reflect_namespaces {texts : List (List Char)} {files : List DeclaredFile}
    (htexts : ∀ text ∈ texts, IsNamespace text) (hlines : ∀ text ∈ texts.dropLast, EndsLine text)
    (hfiles : List.Forall₂ (fun text file => reflect (inFile text) = .ok file) texts files) :
    ∃ file, reflect (inFile texts.flatten) = .ok file ∧
      file.declarations.withoutLines = .concat (files.map fun f => f.declarations.withoutLines) := by
  obtain ⟨segments, hsegments, hjoins⟩ := joins_texts htexts hlines
  have hjoin : Joins segments (tokenize (inFile texts.flatten)) := hjoins texts.flatten 1 rfl
  have hread : List.Forall₂ Segment.Declares segments
      (files.map fun f => f.declarations.withoutLines) := by
    clear htexts hlines hjoins hjoin
    induction hsegments generalizing files with
    | nil => cases hfiles; exact .nil
    | cons hseg _ ih =>
      cases hfiles with
      | cons hfile hfiles => exact .cons (Segment.declares_of_reflect hseg hfile) (ih hfiles)
  obtain ⟨stmts, t', hrun, hreflect⟩ := hjoin.run_statements hjoin.length_le hread
    { rest := tokenize (inFile texts.flatten) } _ rfl (Nat.le_refl _)
  exact ⟨_, reflect_eq_ok.2 ⟨_, parse_eq_ok.2 ⟨stmts, t', hrun, rfl⟩, rfl⟩, hreflect {}⟩

/-- A namespace with an import. -/
def namespaceWithImport : List Char :=
  "\nnamespace A \x7b\n    use X\\Y;\n    class One extends Y \x7b\x7d\n\x7d".toList

/-- A namespace without a name, and without the import. -/
def namespaceWithoutImport : List Char :=
  "\nnamespace \x7b\n    class Two extends Y \x7b\x7d\n\x7d\n".toList

theorem reflect_namespaces_import : ∃ files file,
    List.Forall₂ (fun text file => reflect (inFile text) = .ok file)
      [namespaceWithImport, namespaceWithoutImport] files ∧
    reflect (inFile [namespaceWithImport, namespaceWithoutImport].flatten) = .ok file ∧
    file.declarations.withoutLines = .concat (files.map fun f => f.declarations.withoutLines) := by
  have hread : ∀ {source : List Char}, (reflect source).toOption.isSome →
      ∃ file, reflect source = .ok file := by
    intro source h
    cases hr : reflect source with
    | ok file => exact ⟨file, rfl⟩
    | error e => rw [hr] at h; cases h
  obtain ⟨first, hfirst⟩ : ∃ file, reflect (inFile namespaceWithImport) = .ok file :=
    hread (by decide +kernel)
  obtain ⟨second, hsecond⟩ : ∃ file, reflect (inFile namespaceWithoutImport) = .ok file :=
    hread (by decide +kernel)
  have hfiles : List.Forall₂ (fun text file => reflect (inFile text) = .ok file)
      [namespaceWithImport, namespaceWithoutImport] [first, second] :=
    .cons hfirst (.cons hsecond .nil)
  -- Each text is a namespace of its own, and the first ends its line.
  obtain ⟨file, hfile, hdeclares⟩ := reflect_namespaces (by
    simp only [List.forall_mem_cons, List.not_mem_nil, false_imp_iff, implies_true, and_true]
    constructor <;> constructor <;> decide +kernel) (by
    simp only [List.dropLast, List.forall_mem_cons, List.not_mem_nil, false_imp_iff, implies_true,
      and_true]
    decide +kernel) hfiles
  exact ⟨_, file, hfiles, hfile, hdeclares⟩

example : (reflect (inFile (namespaceWithImport ++ namespaceWithoutImport))).toOption.map
    (fun f => f.declarations.classes.map fun c => (c.name, c.ns, c.parent)) =
      some [("One", some "A", some "X\\Y"), ("Two", none, some "Y")] := by
  decide +kernel

end ApiCatalog.Php
