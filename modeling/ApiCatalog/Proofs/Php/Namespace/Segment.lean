import ApiCatalog.Php.Reflect
import ApiCatalog.Proofs.Php.Parser.Statement

/-!
# The statements of a namespace in its place in a file

The tokens of a file are those of its namespaces, one segment each (`Joins`). The statement that
opens a namespace is read apart from those in it (`run_namespace`), since what stands in front of
it is not the same in the file. Behind it, the statements of the segment are read as they are alone,
on other lines, and the rest of the file follows (`run_statements`). What a segment declares
does not depend on the scope in front of it (`reflectStmts_segment`), so the file declares what its
segments do in order (`Joins.run_statements`).
-/

open ApiCatalog.Php.Parser

namespace ApiCatalog.Php

namespace Seam

variable {c : Seam} {i : Nat} {s t : ParserState} {r r' : Rules}

/-- The end of the source. -/
def isStop (t : Token) : Bool := t.kind == .stop

theorem run_manyFrom_of_stop {item : Parser Stmt} {n : Nat} (h : isStop (ahead 0 s)) :
    (manyFrom isStop item (n + 1)).run s = .ok ([], s) := by
  unfold manyFrom
  rw [run_peek_bind, if_pos h]
  rfl

theorem run_manyFrom_of_item {item : Parser Stmt} {n : Nat} {stmt : Stmt} {stmts : List Stmt}
    {s₁ s' : ParserState} (h : isStop (ahead 0 s) = false) (hitem : item.run s = .ok (stmt, s₁))
    (hrest : (manyFrom isStop item n).run s₁ = .ok (stmts, s')) :
    (manyFrom isStop item (n + 1)).run s = .ok (stmt :: stmts, s') := by
  unfold manyFrom
  rw [run_peek_bind, h, if_neg Bool.false_ne_true]
  exact run_bind_eq_ok.2 ⟨stmt, s₁, hitem, run_bind_eq_ok.2 ⟨stmts, s', hrest, rfl⟩⟩

theorem run_manyFrom_cases {item : Parser Stmt} {n : Nat} {stmts : List Stmt} {s' : ParserState}
    (h : (manyFrom isStop item (n + 1)).run s = .ok (stmts, s')) (hstop : isStop (ahead 0 s) = false) :
    ∃ stmt rest s₁, stmts = stmt :: rest ∧ item.run s = .ok (stmt, s₁) ∧
      (manyFrom isStop item n).run s₁ = .ok (rest, s') := by
  unfold manyFrom at h
  rw [run_peek_bind, hstop, if_neg Bool.false_ne_true] at h
  obtain ⟨stmt, s₁, hitem, h⟩ := run_bind_eq_ok.1 h
  obtain ⟨rest, s₂, hrest, h⟩ := run_bind_eq_ok.1 h
  cases h
  exact ⟨stmt, rest, s₁, rfl, hitem, hrest⟩

/-- The statements up to the end of the part are the same in the whole, and the statements behind
it follow there. -/
theorem run_statements (hr : c.ReadsRules r r') (hpart : ∀ t ∈ c.part, isStop t = false) :
    ∀ n i s t stmts s', c.Alone i s → c.Whole i t → c.part.length - i < n →
      (manyFrom isStop r.stmt n).run s = .ok (stmts, s') →
      ∃ stmts' t', List.Forall₂ Stmt.Moved stmts stmts' ∧ c.Whole c.part.length t' ∧
        stmts.length ≤ c.part.length - i ∧
        ∀ m behind t'', (manyFrom isStop r'.stmt m).run t' = .ok (behind, t'') →
          (manyFrom isStop r'.stmt (stmts.length + m)).run t = .ok (stmts' ++ behind, t'') := by
  intro n
  -- On the bound of the loop; a statement takes at least one token, so it never runs out.
  induction n with
  | zero =>
    intro i s t stmts s' _ _ hn
    exact absurd hn (Nat.not_lt_zero _)
  | succ n ih =>
    intro i s t stmts s' hs ht hn hrun
    rcases Nat.lt_or_eq_of_le hs.le with hi | rfl
    · obtain ⟨hmem, line, hline⟩ := moved_ahead (n := 0) hs ht hi
      have hstop : isStop (ahead 0 s) = false := hpart _ (List.mem_of_getElem? hmem)
      obtain ⟨stmt, rest, s₁, rfl, hitem, hrest⟩ := run_manyFrom_cases hrun hstop
      -- The statement is read the same in place, as it did not look past the part.
      obtain ⟨j, -, hij, hs₁, hsame⟩ := hr.stmt i hs ht hitem
      obtain ⟨stmt', t₁, hitem', hmoved, ht₁⟩ := hsame.resolve_left fun h => Bool.false_ne_true h.1.symm
      have hj := hij rfl
      have hle := hs₁.le
      obtain ⟨rest', t', hmoveds, ht', hlength, hbehind⟩ :=
        ih j s₁ t₁ rest s' hs₁ ht₁ (by omega) hrest
      refine ⟨stmt' :: rest', t', .cons hmoved hmoveds, ht', by rw [List.length_cons]; omega, ?_⟩
      intro m behind t'' hrun'
      have hstop' : isStop (ahead 0 t) = false := by rw [hline]; exact hstop
      rw [List.length_cons, Nat.add_right_comm]
      exact run_manyFrom_of_item hstop' hitem' (hbehind m behind t'' hrun')
    -- At the end of the part the loop stops at the stop token, and in place goes on with what is
    -- behind.
    · have hstop : isStop (ahead 0 s) := by
        rw [isStop, (ends_ahead (n := 0) hs ht rfl).1, c.stop_kind]
        rfl
      rw [run_manyFrom_of_stop hstop] at hrun
      cases hrun
      refine ⟨[], t, .nil, ht, Nat.zero_le _, fun m behind t'' hrun' => ?_⟩
      rw [List.length_nil, Nat.zero_add]
      exact hrun'

/-! ## The statement that opens a namespace -/

theorem kind_of_keyword {k : Token} {keyword : String} (h : k.keyword = keyword) (hk : keyword ≠ "") :
    k.kind = .word := by
  rw [Token.keyword] at h
  by_contra hw
  rw [if_neg (by simpa using hw)] at h
  exact hk h.symm

theorem isStop_of_keyword {k : Token} (h : k.keyword = "namespace") : isStop k = false := by
  rw [isStop, kind_of_keyword h (by decide)]
  rfl

/-- The statement with the keyword `namespace` is read behind the keyword, whatever stands in front
of it. -/
theorem run_namespaceStmt {k : Token} {rest : List Token} (hs : s.rest = k :: rest)
    (hk : k.keyword = "namespace") :
    ∃ text, (statement r).run s =
      (namespaceDecl r k.line text >>= fun kind => pure (Stmt.mk k.lead k.line kind)).run
        { rest, taken := s.taken + 1, lastLine := k.lastLine } := by
  -- The keyword alone decides the rule, and the text for a message reads no token.
  have hhead : ahead 0 s = k := by rw [ahead, hs]; rfl
  have hkind : k.kind = .word := kind_of_keyword hk (by decide)
  have hadvance : advance.run s = .ok (k, { rest, taken := s.taken + 1, lastLine := k.lastLine }) := by
    rw [run_advance_cons hs, hkind]
    rfl
  have hstmt : ∃ text, (stmtKind r).run s =
      (namespaceDecl r k.line text).run { rest, taken := s.taken + 1, lastLine := k.lastLine } := by
    refine ⟨.ofList (((textOfTokens s.rest).toList.takeWhile (· != '\n')).take 40), ?_⟩
    unfold stmtKind
    rw [run_peek_bind, hhead, hkind]
    show (keywordStmt r k.keyword).run s = _
    have hrule : keywordStmt r "namespace" = (peekAt 1 >>= fun _ => peek >>= fun t =>
        firstLine >>= fun text => advance >>= fun _ => namespaceDecl r t.line text) := rfl
    have hfirst : ∀ f : String → Parser StmtKind, (firstLine >>= f).run s =
        (f (.ofList (((textOfTokens s.rest).toList.takeWhile (· != '\n')).take 40))).run s := fun _ => rfl
    have hpeek : ∀ f : Token → Parser StmtKind, (peekAt 1 >>= f).run s = (f (ahead 1 s)).run s :=
      fun _ => rfl
    rw [hk, hrule, hpeek, run_peek_bind, hhead, hfirst, StateT.run_bind, hadvance]
    rfl
  obtain ⟨text, hstmt⟩ := hstmt
  refine ⟨text, ?_⟩
  unfold statement
  rw [run_peek_bind, hhead, StateT.run_bind, StateT.run_bind, hstmt]

theorem opensNamespace_of_namespaceDecl {line : Nat} {text : String} {kind : StmtKind}
    {s' : ParserState} (h : (namespaceDecl r line text).run s = .ok (kind, s')) :
    kind.opensNamespace := by
  obtain ⟨name, s₁, -, h⟩ := run_bind_eq_ok.1 h
  obtain ⟨b, s₂, -, h⟩ := run_bind_eq_ok.1 h
  cases b with
  | true =>
    obtain ⟨body, s₃, -, h⟩ := run_bind_eq_ok.1 h
    obtain ⟨_, s₄, -, h⟩ := run_bind_eq_ok.1 h
    cases h
    rfl
  | false =>
    obtain ⟨_, s₃, -, h⟩ := run_bind_eq_ok.1 h
    cases h
    rfl

/-- The statement that opens a namespace, read alone, is read in the file too, with the lead and the
line its keyword has there. -/
theorem run_namespace {n m : Nat} (hnm : n ≤ m) {k k' : Token} (hk : k.keyword = "namespace")
    (hk' : k'.keyword = "namespace") {stmt : Stmt} {s₁ : ParserState}
    (hs : s.rest = k :: c.part ++ [c.stop]) (hbefore : s.taken + 1 = c.before)
    (ht : t.rest = k' :: c.moved ++ c.next :: c.behind) (hbefore' : t.taken + 1 = c.beforeMoved)
    (hrun : (rules (n + 1)).stmt.run s = .ok (stmt, s₁)) :
    ∃ kind kind' j t₁, stmt = .mk k.lead k.line kind ∧ kind.opensNamespace ∧ kind.Moved kind' ∧
      0 < j ∧ c.Alone j s₁ ∧ c.Whole j t₁ ∧
      (rules (m + 1)).stmt.run t = .ok (.mk k'.lead k'.line kind', t₁) := by
  obtain ⟨text, hdecl⟩ := run_namespaceStmt (r := rules n) hs hk
  obtain ⟨text', hdecl'⟩ := run_namespaceStmt (r := rules m) ht hk'
  obtain ⟨kind, s₂, hkind, hpure⟩ := run_bind_eq_ok.1 (hdecl.symm.trans hrun)
  cases hpure
  -- Behind the keyword both runs stand at the part's first token.
  have halone : c.Alone 0 { rest := c.part ++ [c.stop], taken := s.taken + 1, lastLine := k.lastLine } :=
    ⟨Nat.zero_le _, rfl, hbefore⟩
  have hwhole : c.Whole 0
      { rest := c.moved ++ c.next :: c.behind, taken := t.taken + 1, lastLine := k'.lastLine } :=
    ⟨rfl, hbefore'⟩
  obtain ⟨j, -, hj, hs₁, hsame⟩ := reads_namespaceDecl (reads_rules n m hnm) k.line k'.line text text'
    0 halone hwhole hkind
  obtain ⟨kind', t₁, hkind', hmoved, ht₁⟩ := hsame.resolve_left fun h => Bool.false_ne_true h.1.symm
  exact ⟨kind, kind', j, t₁, rfl, opensNamespace_of_namespaceDecl hkind, hmoved, hj rfl, hs₁, ht₁,
    hdecl'.trans (run_bind_eq_ok.2 ⟨kind', t₁, hkind', rfl⟩)⟩

end Seam

/-! ## Namespaces one after the other -/

/-- The tokens of a namespace and of what stands in it, alone in a file. -/
structure Segment where
  keyword : Token
  part : List Token
  stop : Token
  keyword_eq : keyword.keyword = "namespace"
  stop_kind : stop.kind = .stop
  kind_ne_stop : ∀ t ∈ part, t.kind ≠ .stop
  inside : ∀ t ∈ part ++ [stop], t.followsMarkup = false
  ends : ∃ t, part.getLast? = some t ∧ t.endsStatement

/-- All tokens of the file. -/
def Segment.tokens (seg : Segment) : List Token := seg.keyword :: seg.part ++ [seg.stop]

/-- The tokens of a file are those of the segments in order, on other lines. What stands in front
of a segment, and is none of its tokens, may belong to the segment or to the one before it. -/
inductive Joins : List Segment → List Token → Prop where
  | nil {stop : Token} (h : stop.kind = .stop) : Joins [] [stop]
  | cons {seg : Segment} {segments : List Segment} {keyword : Token} {moved whole : List Token}
      (hkeyword : keyword.keyword = "namespace") (hmoved : List.Forall₂ Token.Moved seg.part moved)
      (hrest : Joins segments whole) : Joins (seg :: segments) (keyword :: moved ++ whole)

theorem Joins.exists_next {segments : List Segment} {whole : List Token} (h : Joins segments whole) :
    ∃ next behind, whole = next :: behind ∧
      (next.kind = .stop ∨ next.kind = .word ∧ next.keyword = "namespace") := by
  cases h with
  | nil h => exact ⟨_, _, rfl, .inl h⟩
  | cons hkeyword => exact ⟨_, _, rfl, .inr ⟨Seam.kind_of_keyword hkeyword (by decide), hkeyword⟩⟩

theorem Joins.length_le {segments : List Segment} {whole : List Token} (h : Joins segments whole) :
    ∀ seg ∈ segments, seg.tokens.length ≤ whole.length := by
  induction h with
  | nil => exact fun seg hseg => nomatch hseg
  | @cons seg segments keyword moved whole _ hmoved hrest ih =>
    have hpart := hmoved.length_eq
    obtain ⟨next, behind, rfl, -⟩ := hrest.exists_next
    intro seg' hseg'
    rcases List.mem_cons.1 hseg' with rfl | hseg'
    · simp only [Segment.tokens, List.length_append, List.length_cons, List.length_nil]
      omega
    · have := ih seg' hseg'
      simp only [List.length_append, List.length_cons] at this ⊢
      omega

/-- A namespace and what stands in it reflect alike on other lines, whatever the scope in front. -/
theorem reflectStmts_segment {kind kind' : StmtKind} (h : kind.opensNamespace)
    (hkind : kind.Moved kind') {rest rest' : List Stmt} (hrest : List.Forall₂ Stmt.Moved rest rest')
    (lead lead' : List Trivia) (line line' : Nat) (s s' : Scope) :
    (reflectStmts s (.mk lead line kind :: rest)).1.withoutLines =
      (reflectStmts s' (.mk lead' line' kind' :: rest')).1.withoutLines := by
  have hopens : kind.withoutLines.opensNamespace := by
    cases kind with
    | namespaceHeader | namespaceBlock => rfl
    | _ => cases h
  have hfirst : reflectStmts s (statementsWithoutLines (.mk lead line kind :: rest)) =
      reflectStmts s' (statementsWithoutLines (.mk lead' line' kind' :: rest')) := by
    simp only [statementsWithoutLines, Stmt.withoutLines, reflectStmts, reflectStmt]
    rw [← hkind, ← statementsWithoutLines_eq_of_moved hrest,
      reflectKind_of_opensNamespace hopens s s' lead lead' 0 0]
  rw [reflectStmts_withoutLines, reflectStmts_withoutLines] at hfirst
  exact congrArg Prod.fst hfirst

/-- The segment between its keyword and what stands behind it in the file. -/
def Segment.seam (seg : Segment) {moved : List Token} {next : Token} (behind : List Token)
    (beforeMoved : Nat) (hmoved : List.Forall₂ Token.Moved seg.part moved)
    (hnext : next.kind = .stop ∨ next.kind = .word ∧ next.keyword = "namespace") : Seam where
  part := seg.part
  stop := seg.stop
  moved := moved
  next := next
  behind := behind
  before := 1
  beforeMoved := beforeMoved
  moved_of_part := hmoved
  stop_kind := seg.stop_kind
  next_kind := hnext
  inside := seg.inside
  ends := seg.ends

/-- A segment in its place: its statements are read, and then those behind it. -/
theorem Segment.run_in_place (seg : Segment) {n m : Nat} (hnm : n ≤ m) {stmts : List Stmt}
    {s' t : ParserState} {keyword next : Token} {moved behind : List Token}
    (hkeyword : keyword.keyword = "namespace") (hmoved : List.Forall₂ Token.Moved seg.part moved)
    (hnext : next.kind = .stop ∨ next.kind = .word ∧ next.keyword = "namespace")
    (hrun : (manyFrom Seam.isStop (rules (n + 1)).stmt seg.tokens.length).run { rest := seg.tokens } =
      .ok (stmts, s'))
    (ht : t.rest = keyword :: moved ++ next :: behind) :
    ∃ stmts' t', t'.rest = next :: behind ∧ stmts.length ≤ seg.part.length + 1 ∧
      (∀ s, (reflectStmts s stmts').1.withoutLines = (reflectStmts {} stmts).1.withoutLines) ∧
      ∀ k rest t'', (manyFrom Seam.isStop (rules (m + 1)).stmt k).run t' = .ok (rest, t'') →
        (manyFrom Seam.isStop (rules (m + 1)).stmt (stmts.length + k)).run t =
          .ok (stmts' ++ rest, t'') := by
  have hlength : seg.tokens.length = seg.part.length + 1 + 1 := by
    rw [Segment.tokens, List.cons_append, List.length_cons, List.length_append, List.length_singleton]
  rw [hlength] at hrun
  have hstop : Seam.isStop (Seam.ahead 0 { rest := seg.tokens }) = false :=
    Seam.isStop_of_keyword seg.keyword_eq
  obtain ⟨stmt, rest, s₁, rfl, hstmt, hrest⟩ := Seam.run_manyFrom_cases hrun hstop
  let c : Seam := seg.seam behind (t.taken + 1) hmoved hnext
  -- What stands in front of the keyword differs in the file, so its statement is read apart.
  obtain ⟨kind, kind', j, t₁, rfl, hopens, hmovedKind, hpos, hs₁, ht₁, hitem⟩ :=
    c.run_namespace hnm seg.keyword_eq hkeyword rfl rfl ht rfl hstmt
  -- The other statements of the segment are read as its tokens are.
  have hle := hs₁.le
  have hrules : c.ReadsRules (rules (n + 1)) (rules (m + 1)) :=
    Seam.reads_rules _ _ (Nat.succ_le_succ hnm)
  have hpart : ∀ t ∈ c.part, Seam.isStop t = false :=
    fun t h => beq_false_of_ne (seg.kind_ne_stop t h)
  obtain ⟨rest', t', hmovedRest, ht', hcount, hbehind⟩ := Seam.run_statements hrules hpart _ j s₁ t₁
    rest s' hs₁ ht₁ (by show seg.part.length - j < _; omega) hrest
  refine ⟨.mk keyword.lead keyword.line kind' :: rest', t', ?_, ?_, ?_, ?_⟩
  · rw [ht'.rest, ← c.length_moved, List.drop_left]
    rfl
  · rw [List.length_cons]
    exact Nat.succ_le_succ (Nat.le_trans hcount (Nat.sub_le _ _))
  · intro s
    exact (reflectStmts_segment hopens hmovedKind hmovedRest
      seg.keyword.lead keyword.lead seg.keyword.line keyword.line {} s).symm
  · intro k behind' t'' hrun'
    have hstop' : Seam.isStop (Seam.ahead 0 t) = false := by
      rw [Seam.ahead, ht]
      exact Seam.isStop_of_keyword hkeyword
    rw [List.length_cons, Nat.add_right_comm]
    exact Seam.run_manyFrom_of_item hstop' hitem (hbehind k behind' t'' hrun')

/-- What the segment declares, alone in a file. -/
def Segment.Declares (seg : Segment) (d : Declarations) : Prop :=
  ∃ stmts s', (manyFrom Seam.isStop (rules (seg.tokens.length + 1)).stmt seg.tokens.length).run
    { rest := seg.tokens } = .ok (stmts, s') ∧ (reflectStmts {} stmts).1.withoutLines = d

/-- Where every segment alone is read, so is the file, and it declares what they do in order. -/
theorem Joins.run_statements {segments : List Segment} {whole : List Token}
    (hjoin : Joins segments whole) {m : Nat} (hm : ∀ seg ∈ segments, seg.tokens.length ≤ m) :
    ∀ {ds : List Declarations}, List.Forall₂ Segment.Declares segments ds →
    ∀ (t : ParserState) (fuel : Nat), t.rest = whole → whole.length ≤ fuel →
      ∃ stmts t', (manyFrom Seam.isStop (rules (m + 1)).stmt fuel).run t = .ok (stmts, t') ∧
        ∀ s, (reflectStmts s stmts).1.withoutLines = .concat ds := by
  -- Along the segments; each is run in its place in front of all that are left.
  induction hjoin with
  | @nil stop hstop =>
    intro ds hread t fuel ht hfuel
    cases hread
    obtain ⟨fuel, rfl⟩ : ∃ k, fuel = k + 1 := ⟨fuel - 1, (Nat.succ_pred_eq_of_pos hfuel).symm⟩
    refine ⟨[], t, Seam.run_manyFrom_of_stop ?_, fun s => rfl⟩
    rw [Seam.isStop, Seam.ahead, ht]
    exact beq_iff_eq.2 hstop
  | @cons seg segments keyword moved whole hkeyword hmoved hrest ih =>
    intro ds hread t fuel ht hfuel
    obtain ⟨next, behind, rfl, hnext⟩ := hrest.exists_next
    cases hread with
    | @cons _ d _ ds hfirst hread =>
      obtain ⟨stmts, s', hrun, rfl⟩ := hfirst
      obtain ⟨stmts', t', ht', hcount, hreflect, hbehind⟩ :=
        seg.run_in_place (hm seg (List.mem_cons_self ..)) hkeyword hmoved hnext hrun ht
      have hpart := hmoved.length_eq
      simp only [List.length_append, List.length_cons] at hfuel
      -- What fuel the segment's statements leave is enough for the tokens behind them.
      obtain ⟨rest, t'', hrun', hreflect'⟩ := ih (fun seg h => hm seg (List.mem_cons_of_mem _ h))
        hread t' (fuel - stmts.length) ht' (by rw [List.length_cons]; omega)
      refine ⟨stmts' ++ rest, t'', ?_, fun s => ?_⟩
      · have h := hbehind (fuel - stmts.length) rest t'' hrun'
        rwa [show stmts.length + (fuel - stmts.length) = fuel by omega] at h
      · rw [reflectStmts_append, Declarations.concat_cons, ← hreflect s, ← hreflect' (reflectStmts s stmts').2]
        exact Declarations.withoutLines_append ..

end ApiCatalog.Php
