import ApiCatalog.Proofs.Php.Parser.Seam

/-!
# Tokens, repetition and source text in place

A test of the next token says the same at the end of the part as in front of what follows there in
the whole, unless it asks for a word, for the end of the source or for the keyword `namespace`. So
brackets, separators and semicolons are read alike in both; a list of items up to the end of the
source is not.
-/

open ApiCatalog.Php.Parser

namespace ApiCatalog.Php

/-! ## Moved tokens -/

/-- A token is the same as itself. -/
theorem Token.Moved.refl (t : Token) : t.Moved t := ⟨t.line, rfl⟩

namespace Seam

/-- What comes next alone and in the whole: the same token, or the ends of the part. -/
def Meets (c : Seam) (t t' : Token) : Prop := t.Moved t' ∨ t = c.stop ∧ t' = c.next

variable {α β : Type} {c : Seam} {g g' : Grade} {i j : Nat} {s t : ParserState}

/-- Tokens that are the same meet. -/
theorem Meets.refl (t : Token) : c.Meets t t := .inl (.refl t)

/-- Where tokens meet, one is of a kind just if the other is, words and the end apart. -/
theorem Meets.kind_eq {t t' : Token} (h : c.Meets t t') {kind : TokenKind} (hw : kind ≠ .word)
    (hs : kind ≠ .stop) : (t'.kind == kind) = (t.kind == kind) := by
  rcases h with ⟨line, rfl⟩ | ⟨rfl, rfl⟩
  · rfl
  · have hstop : (c.stop.kind == kind) = false := by rw [c.stop_kind]; simpa using hs.symm
    rw [hstop]
    rcases c.next_kind with h | ⟨h, -⟩ <;> rw [h]
    · simpa using hs.symm
    · simpa using hw.symm

/-- Where tokens meet, one is a symbol just if the other is. -/
theorem Meets.isSymbol_eq {t t' : Token} (h : c.Meets t t') (sym : String) :
    t'.isSymbol sym = t.isSymbol sym := by
  rcases h with ⟨line, rfl⟩ | hends
  · rfl
  · have hkind : (t'.kind == .symbol) = (t.kind == .symbol) :=
      Meets.kind_eq (.inr hends : c.Meets t t') (by decide) (by decide)
    have hstop : (t.kind == .symbol) = false := by rw [hends.1, c.stop_kind]; rfl
    rw [Token.isSymbol, Token.isSymbol, hkind, hstop]
    rfl

/-- The end of a part is no keyword. -/
theorem keyword_stop (c : Seam) : c.stop.keyword = "" := by
  rw [Token.keyword, c.stop_kind]
  rfl

/-- What follows a part is the end of the file, or a namespace. -/
theorem keyword_next (c : Seam) : c.next.keyword = "" ∨ c.next.keyword = "namespace" := by
  refine c.next_kind.imp (fun h => ?_) And.right
  rw [Token.keyword, h]
  rfl

/-- Where tokens meet, one is a keyword just if the other is, that of a namespace apart. -/
theorem Meets.keyword_eq {t t' : Token} (h : c.Meets t t') {k : String} (hk : k ≠ "")
    (hn : k ≠ "namespace") : (t'.keyword == k) = (t.keyword == k) := by
  rcases h with ⟨line, rfl⟩ | ⟨rfl, rfl⟩
  · rfl
  · rw [keyword_stop, beq_false_of_ne hk.symm]
    rcases c.keyword_next with h | h <;> rw [h]
    · exact beq_false_of_ne hk.symm
    · exact beq_false_of_ne hn.symm

/-! ## Looking ahead -/

/-- The token `n` places ahead. -/
def ahead (n : Nat) (s : ParserState) : Token :=
  (s.rest[n]?).getD { kind := .stop, text := "", line := s.lastLine }

/-- A look at the next token reads nothing. -/
theorem run_peek_bind (f : Token → Parser α) (s : ParserState) :
    (peek >>= f).run s = (f (ahead 0 s)).run s := rfl

theorem run_get_bind (f : ParserState → Parser α) (s : ParserState) :
    (get >>= f).run s = (f s).run s := rfl

/-- A token inside the part is the same in the whole. -/
theorem moved_ahead {n : Nat} (hs : c.Alone i s) (ht : c.Whole i t) (h : i + n < c.part.length) :
    c.part[i + n]? = some (ahead n s) ∧ (ahead n s).Moved (ahead n t) := by
  have h' : i + n < c.moved.length := by rw [length_moved]; exact h
  have hA : s.rest[n]? = some c.part[i + n] := by
    rw [hs.rest, List.getElem?_drop, List.getElem?_append_left h, List.getElem?_eq_getElem h]
  have hW : t.rest[n]? = some c.moved[i + n] := by
    rw [ht.rest, List.getElem?_drop, List.getElem?_append_left h', List.getElem?_eq_getElem h']
  rw [ahead, ahead, hA, hW]
  exact ⟨List.getElem?_eq_getElem h, (List.forall₂_iff_get.1 c.moved_of_part).2 _ h h'⟩

/-- Where the part ends alone, what follows stands in the whole. -/
theorem ends_ahead {n : Nat} (hs : c.Alone i s) (ht : c.Whole i t) (h : i + n = c.part.length) :
    ahead n s = c.stop ∧ ahead n t = c.next := by
  have hA : s.rest[n]? = some c.stop := by
    rw [hs.rest, List.getElem?_drop, h, List.getElem?_append_right (Nat.le_refl _), Nat.sub_self]
    rfl
  have hW : t.rest[n]? = some c.next := by
    rw [ht.rest, List.getElem?_drop, h, ← length_moved,
      List.getElem?_append_right (Nat.le_refl _), Nat.sub_self]
    rfl
  rw [ahead, ahead, hA, hW]
  exact ⟨rfl, rfl⟩

/-- Up to the end of the part, what is ahead meets what is ahead in the whole. -/
theorem meets_ahead {n : Nat} (hs : c.Alone i s) (ht : c.Whole i t) (h : i + n ≤ c.part.length) :
    c.Meets (ahead n s) (ahead n t) := by
  rcases Nat.lt_or_eq_of_le h with h | h
  · exact .inl (moved_ahead hs ht h).2
  · exact .inr (ends_ahead hs ht h)

/-- Looking `n` tokens ahead, where the part does not end in front of them. -/
theorem readsAt_peekAt {n : Nat} (h : i + n ≤ c.part.length) :
    c.ReadsAt i .strict c.Meets (peekAt n) (peekAt n) := by
  intro s t a s' hs ht hp
  cases hp
  exact ⟨i, Nat.le_refl i, Bool.false_ne_true.elim, hs, .inr ⟨_, t, rfl, meets_ahead hs ht h, ht⟩⟩

/-- Looking one token ahead, which is across the end only at the end. -/
theorem reads_peekAt_one : c.Reads .loose c.Meets (peekAt 1) (peekAt 1) := by
  intro i
  rcases Nat.lt_or_ge i c.part.length with hi | hi
  · exact (readsAt_peekAt hi).mono (by decide)
  · intro s t a s' hs ht hp
    cases hp
    exact ⟨i, Nat.le_refl i, Bool.false_ne_true.elim, hs, .inl ⟨rfl, Nat.le_antisymm hs.le hi⟩⟩

/-- The next token is looked at wherever the parser stands in the part. -/
theorem reads_peek : c.Reads .strict c.Meets peek peek := by
  intro i s t a s' hs ht hp
  exact readsAt_peekAt hs.le hs ht hp

/-- The next token is the same in the whole, unless the part ends here. -/
theorem reads_peek_moved : c.Reads .loose Token.Moved peek peek := by
  intro i s t a s' hs ht hp
  cases hp
  rcases Nat.lt_or_eq_of_le hs.le with hi | hi
  · exact ⟨i, Nat.le_refl i, Bool.false_ne_true.elim, hs,
      .inr ⟨_, t, rfl, (moved_ahead hs ht hi).2, ht⟩⟩
  · exact ⟨i, Nat.le_refl i, Bool.false_ne_true.elim, hs, .inl ⟨rfl, hi⟩⟩

/-! ## Single tokens -/

/-- A token is taken, unless it is the end or broken. -/
theorem run_advance_cons {t : Token} {rest : List Token} (h : s.rest = t :: rest) :
    advance.run s =
      if t.kind == .stop || t.kind == .broken then fail.run s
      else .ok (t, { rest, taken := s.taken + 1, lastLine := t.lastLine }) := by
  unfold advance
  rw [StateT.run_bind, StateT.run_get]
  simp only [pure_bind, h]
  split <;> rfl

/-- A failure never succeeds. -/
theorem run_fail (s : ParserState) : ∃ e, (fail : Parser α).run s = .error e := ⟨_, rfl⟩

theorem reads_fail {R : α → α → Prop} {q : Parser α} : c.Reads .closing R fail q :=
  .of_fails run_fail

theorem reads_throw {R : α → α → Prop} {q : Parser α} (e : SyntaxError) :
    c.Reads .closing R (throw e) q := .of_fails fun _ => ⟨e, rfl⟩

/-- Taking a token takes one of the part, since its end cannot be taken. -/
theorem reads_advance : c.Reads .closing Token.Moved advance advance := by
  intro i s t a s' hs ht hp
  rcases Nat.lt_or_eq_of_le hs.le with hi | rfl
  · obtain ⟨t₁, t₂, hpart, ⟨line, rfl⟩, hA, hW⟩ := exists_token hi
    rw [run_advance_cons (hA s hs)] at hp
    by_cases hend : (t₁.kind == .stop || t₁.kind == .broken) = true
    · rw [if_pos hend] at hp
      obtain ⟨e, he⟩ := run_fail (α := Token) s
      rw [he] at hp
      cases hp
    · rw [if_neg hend] at hp
      cases hp
      have htaken : s.taken + 1 = c.before + (i + 1) := by rw [hs.taken, Nat.add_assoc]
      have htaken' : t.taken + 1 = c.beforeMoved + (i + 1) := by rw [ht.taken, Nat.add_assoc]
      have hq := run_advance_cons (hW t ht)
      rw [if_neg hend] at hq
      exact ⟨i + 1, Nat.le_succ i, fun _ => Nat.lt_succ_self i, ⟨hi, rfl, htaken⟩,
        .inr ⟨_, _, hq, ⟨line, rfl⟩, rfl, htaken'⟩⟩
  · obtain ⟨e, he⟩ := run_fail (α := Token) s
    rw [run_advance_cons hs.rest_end, c.stop_kind, if_pos (by rfl), he] at hp
    cases hp

/-- Looking for a symbol comes out the same at the end of the part. -/
theorem reads_atSymbol (sym : String) : c.Reads .strict Eq (atSymbol sym) (atSymbol sym) :=
  .mono (.bind_rel reads_peek Meets.refl fun _ _ h => .of_pure (h.isSymbol_eq sym).symm) (by decide)

/-- So does looking for a keyword other than that of a namespace. -/
theorem reads_atKeyword {k : String} (hk : k ≠ "") (hn : k ≠ "namespace") :
    c.Reads .strict Eq (atKeyword k) (atKeyword k) :=
  .mono (.bind_rel reads_peek Meets.refl fun _ _ h => .of_pure (h.keyword_eq hk hn).symm)
    (by decide)

/-- A symbol that may come next is looked for, and taken if it is there. -/
theorem accept_bind (sym : String) (f : Bool → Parser β) :
    accept sym >>= f =
      atSymbol sym >>= fun b => if b then advance >>= fun _ => f true else f false := by
  unfold accept
  rw [bind_assoc]
  congr 1
  funext b
  cases b <;> simp

theorem acceptKeyword_bind (k : String) (f : Bool → Parser β) :
    acceptKeyword k >>= f =
      atKeyword k >>= fun b => if b then advance >>= fun _ => f true else f false := by
  unfold acceptKeyword
  rw [bind_assoc]
  congr 1
  funext b
  cases b <;> simp

/-- Behind a token that may come next. -/
theorem ReadsAt.advance_if {S : β → β → Prop} {p q : Parser Bool} {f f' : Bool → Parser β}
    (hp : c.ReadsAt i .strict Eq p q) (ht : ∀ j, i < j → c.ReadsAt j g S (f true) (f' true))
    (hf : ∀ j, i ≤ j → c.ReadsAt j g' S (f false) (f' false)) :
    c.ReadsAt i ({ g with moves := true }.orElse g') S
      (p >>= fun b => if b then advance >>= fun _ => f true else f false)
      (q >>= fun b => if b then advance >>= fun _ => f' true else f' false) := by
  have hbranches : ∀ j, i ≤ j → (Grade.strict.moves → i < j) → ∀ b : Bool,
      c.ReadsAt j ((Grade.closing.andThen g).orElse g') S
        (if b then advance >>= fun _ => f true else f false)
        (if b then advance >>= fun _ => f' true else f' false) := by
    intro j hij _ b
    refine .ite (fun _ => ?_) fun _ => hf j hij
    refine (reads_advance j).bind_rel Token.Moved.refl fun k _ hk _ _ _ => ?_
    exact ht k (Nat.lt_of_le_of_lt hij (hk rfl))
  refine (hp.bind_at hbranches).mono ?_
  simp [Grade.Below, Grade.andThen, Grade.orElse]

/-- What follows a symbol that may come next starts behind it, if it is there. -/
theorem ReadsAt.accept {S : β → β → Prop} (sym : String) {f f' : Bool → Parser β}
    (ht : ∀ j, i < j → c.ReadsAt j g S (f true) (f' true))
    (hf : ∀ j, i ≤ j → c.ReadsAt j g' S (f false) (f' false)) :
    c.ReadsAt i ({ g with moves := true }.orElse g') S (accept sym >>= f) (accept sym >>= f') := by
  rw [accept_bind, accept_bind]
  exact .advance_if (reads_atSymbol sym i) ht hf

theorem ReadsAt.acceptKeyword {S : β → β → Prop} {k : String} (hk : k ≠ "")
    (hn : k ≠ "namespace") {f f' : Bool → Parser β}
    (ht : ∀ j, i < j → c.ReadsAt j g S (f true) (f' true))
    (hf : ∀ j, i ≤ j → c.ReadsAt j g' S (f false) (f' false)) :
    c.ReadsAt i ({ g with moves := true }.orElse g') S
      (acceptKeyword k >>= f) (acceptKeyword k >>= f') := by
  rw [acceptKeyword_bind, acceptKeyword_bind]
  exact .advance_if (reads_atKeyword hk hn i) ht hf

/-- Where what follows is read anywhere, no position is to be kept track of. -/
theorem Reads.accept {S : β → β → Prop} (sym : String) {f f' : Bool → Parser β}
    (ht : c.Reads g S (f true) (f' true)) (hf : c.Reads g' S (f false) (f' false)) :
    c.Reads ({ g with moves := true }.orElse g') S (accept sym >>= f) (accept sym >>= f') :=
  fun _ => .accept sym (fun j _ => ht j) fun j _ => hf j

theorem Reads.acceptKeyword {S : β → β → Prop} {k : String} (hk : k ≠ "") (hn : k ≠ "namespace")
    {f f' : Bool → Parser β} (ht : c.Reads g S (f true) (f' true))
    (hf : c.Reads g' S (f false) (f' false)) :
    c.Reads ({ g with moves := true }.orElse g') S
      (acceptKeyword k >>= f) (acceptKeyword k >>= f') :=
  fun _ => .acceptKeyword hk hn (fun j _ => ht j) fun j _ => hf j

/-- Taking a symbol if it comes next. -/
theorem reads_accept (sym : String) : c.Reads .strict Eq (accept sym) (accept sym) := by
  have h : c.Reads _ Eq (Parser.accept sym >>= pure) (Parser.accept sym >>= pure) :=
    .accept sym (.of_pure rfl) (.of_pure rfl)
  rw [bind_pure] at h
  exact h.mono (by decide)

/-- Taking a keyword if it comes next. -/
theorem reads_acceptKeyword {k : String} (hk : k ≠ "") (hn : k ≠ "namespace") :
    c.Reads .strict Eq (acceptKeyword k) (acceptKeyword k) := by
  have h : c.Reads _ Eq (Parser.acceptKeyword k >>= pure) (Parser.acceptKeyword k >>= pure) :=
    .acceptKeyword hk hn (.of_pure rfl) (.of_pure rfl)
  rw [bind_pure] at h
  exact h.mono (by decide)

/-- A symbol that has to come takes a token. -/
theorem reads_expect (sym : String) : c.Reads .closing Eq (expect sym) (expect sym) :=
  .mono (.accept sym (.of_pure rfl) reads_fail) (by decide)

theorem reads_expectKeyword {k : String} (hk : k ≠ "") (hn : k ≠ "namespace") :
    c.Reads .closing Eq (expectKeyword k) (expectKeyword k) :=
  .mono (.acceptKeyword hk hn (.of_pure rfl) reads_fail) (by decide)

/-- The text of a token that has to be of some kind. -/
theorem reads_textOf (test : Token → Bool) (h : ∀ t line, test { t with line } = test t) :
    c.Reads .closing Eq
      (do if test (← peek) then return (← advance).text else fail)
      (do if test (← peek) then return (← advance).text else fail) := by
  have hbody : ∀ t t', t.Moved t' → c.Reads .closing Eq
      (if test t then advance >>= fun a => pure a.text else fail)
      (if test t' then advance >>= fun a => pure a.text else fail) := by
    rintro t _ ⟨line, rfl⟩
    rw [h t line]
    have hadvance : c.Reads .closing Eq
        (advance >>= fun a => pure a.text) (advance >>= fun a => pure a.text) :=
      .mono (.bind_rel reads_advance Token.Moved.refl fun _ _ ⟨_, h⟩ => .of_pure (by rw [h]))
        (by decide)
    exact .mono (.ite (fun _ => hadvance) fun _ => reads_fail) (by decide)
  exact .mono (.bind_rel reads_peek_moved Token.Moved.refl hbody) (by decide)

/-- A word that has to come is the same in the whole. -/
theorem reads_word : c.Reads .closing Eq word word := reads_textOf _ fun _ _ => rfl

theorem reads_variableToken : c.Reads .closing Eq variableToken variableToken :=
  reads_textOf _ fun _ _ => rfl

theorem reads_closeBrace : c.Reads .closing Eq closeBrace closeBrace := by
  have hmissing : ∀ s, ∃ e, (do
      if (← peek).kind == .stop then throw (.missing "\x7d" (← get).lastLine) else fail :
        Parser Unit).run s = .error e := by
    intro s
    rw [run_peek_bind]
    split
    · exact ⟨_, rfl⟩
    · exact run_fail s
  exact .mono (.accept "\x7d" (.of_pure rfl) (.of_fails hmissing)) (by decide)

/-- No closing tag stands in the part or at its end. -/
theorem followsMarkup_ahead (hs : c.Alone i s) : (ahead 0 s).followsMarkup = false := by
  have hle : i < (c.part ++ [c.stop]).length := by
    rw [List.length_append]
    exact Nat.lt_succ_of_le hs.le
  have hhead : s.rest[0]? = some (c.part ++ [c.stop])[i] := by
    rw [hs.rest, List.getElem?_drop]
    exact List.getElem?_eq_getElem hle
  rw [ahead, hhead]
  exact c.inside _ (List.getElem_mem hle)

/-- A semicolon may be one that markup stands for, which is none at the end of a part. -/
theorem reads_semicolon : c.Reads .closing Eq semicolon semicolon := by
  have hmissing : c.Reads .closing Eq (do
      if !(← peek).followsMarkup then throw (.missing ";" (← get).lastLine) : Parser Unit) (do
      if !(← peek).followsMarkup then throw (.missing ";" (← get).lastLine)) := by
    intro i s t a s' hs ht hp
    rw [run_peek_bind, followsMarkup_ahead hs] at hp
    cases hp
  exact .mono (.accept ";" (.of_pure rfl) hmissing) (by decide)

/-- What is read is dropped. -/
theorem Reads.void {R : α → α → Prop} {p q : Parser α} (h : c.Reads g R p q) (hR : ∀ a, R a a) :
    c.Reads g Eq (p >>= fun _ => pure ()) (q >>= fun _ => pure ()) := by
  refine .mono (h.bind_rel hR fun _ _ _ => .of_pure rfl) ?_
  simp [Grade.Below, Grade.andThen]

/-! ## Repetition -/

/-- What is given the number of tokens left as its fuel. -/
theorem Reads.of_length {S : β → β → Prop} (f f' : Nat → Parser β)
    (h : ∀ n m i, c.part.length - i < n → c.part.length - i < m → c.ReadsAt i g S (f n) (f' m)) :
    c.Reads g S (get >>= fun s => f s.rest.length) (get >>= fun s => f' s.rest.length) := by
  intro i s t a s' hs ht hp
  have hn : c.part.length - i < s.rest.length := by
    have hle := hs.le
    rw [hs.rest, List.length_drop, List.length_append, List.length_singleton]
    omega
  have hm : c.part.length - i < t.rest.length := by
    have hle := hs.le
    rw [ht.rest, List.length_drop, List.length_append, length_moved, List.length_cons]
    omega
  exact h _ _ i hn hm hs ht hp

/-- The same with more behind it. -/
theorem Reads.length_bind {S : β → β → Prop} {p p' : Nat → Parser α} {f f' : α → Parser β}
    (hp : c.Reads g Eq (get >>= fun s => p s.rest.length) (get >>= fun s => p' s.rest.length))
    (hf : ∀ a, c.Reads g' S (f a) (f' a)) :
    c.Reads (g.andThen g') S
      (get >>= fun s => p s.rest.length >>= f) (get >>= fun s => p' s.rest.length >>= f') := by
  have h := Reads.bind hp hf
  rw [bind_assoc, bind_assoc] at h
  exact h

/-- A rule that recurs on its fuel, and only behind a token it has read, has enough of it where it
has a step for each token left. -/
theorem readsAt_of_step {γ : Type} {R : α → α → Prop} (p p' : γ → Nat → Parser α)
    (step : ∀ n m i, (∀ x j, i < j → c.ReadsAt j g R (p x n) (p' x m)) →
      ∀ x, c.ReadsAt i g R (p x (n + 1)) (p' x (m + 1))) :
    ∀ n m i, c.part.length - i < n → c.part.length - i < m →
      ∀ x, c.ReadsAt i g R (p x n) (p' x m) := by
  intro n
  induction n with
  | zero =>
    intro m i hn
    exact absurd hn (Nat.not_lt_zero _)
  | succ n ih =>
    intro m i hn hm
    obtain ⟨m, rfl⟩ : ∃ k, m = k + 1 := ⟨m - 1, by omega⟩
    exact step n m i fun x j hij => .of_le fun hle => ih m j (by omega) (by omega) x

/-- A loop is read in place if one round is, where later rounds start further on. -/
theorem Reads.of_step {R : α → α → Prop} {p p' : Nat → Parser α}
    (step : ∀ n m i, (∀ j, i < j → c.ReadsAt j g R (p n) (p' m)) →
      c.ReadsAt i g R (p (n + 1)) (p' (m + 1))) :
    c.Reads g R (get >>= fun s => p s.rest.length) (get >>= fun s => p' s.rest.length) := by
  have hall := readsAt_of_step (fun (_ : Unit) n => p n) (fun _ n => p' n)
    fun n m i h _ => step n m i (h ())
  exact .of_length p p' fun n m i hn hm => hall n m i hn hm ()

/-- Items are read as long as the test looks the same on tokens that meet. -/
theorem readsAt_manyFrom {R : α → α → Prop} (hR : ∀ a, R a a) {T : Token → Token → Prop}
    (hT : ∀ t, T t t) {f : Bool} (hpeek : c.Reads { faithful := f, moves := false } T peek peek)
    {stop : Token → Bool} (hstop : ∀ t t', T t t' → stop t' = stop t) {item item' : Parser α}
    (hitem : c.Reads { faithful := f, moves := true } R item item') (n m i : Nat)
    (hrec : ∀ j, i < j → c.ReadsAt j { faithful := f, moves := false } (List.Forall₂ R)
      (manyFrom stop item n) (manyFrom stop item' m)) :
    c.ReadsAt i { faithful := f, moves := false } (List.Forall₂ R)
      (manyFrom stop item (n + 1)) (manyFrom stop item' (m + 1)) := by
  -- The loop is the bound's next step: look, stop, or read an item and go on.
  have hlist : ∀ as : List α, List.Forall₂ R as as := fun as => List.forall₂_same.2 fun a _ => hR a
  have hrest : ∀ j, i < j → ∀ a a', R a a' →
      c.ReadsAt j { faithful := f, moves := false } (List.Forall₂ R)
        (manyFrom stop item n >>= fun rest => pure (a :: rest))
        (manyFrom stop item' m >>= fun rest => pure (a' :: rest)) := by
    intro j hij a a' ha
    refine .mono ((hrec j hij).bind_rel hlist fun k _ _ rest rest' hrest =>
      .of_pure (.cons ha hrest)) ?_
    simp [Grade.Below, Grade.andThen]
  -- An item moves on, so the rest is read from a later place, where `hrec` holds.
  have hmore : ∀ j, i ≤ j → c.ReadsAt j { faithful := f, moves := true } (List.Forall₂ R)
      (item >>= fun a => manyFrom stop item n >>= fun rest => pure (a :: rest))
      (item' >>= fun a => manyFrom stop item' m >>= fun rest => pure (a :: rest)) := by
    intro j hij
    refine .mono ((hitem j).bind_rel hR fun k _ hk a a' ha =>
      hrest k (Nat.lt_of_le_of_lt hij (hk rfl)) a a' ha) ?_
    simp [Grade.Below, Grade.andThen]
  have hnext : ∀ j, i ≤ j → ∀ t t', T t t' → c.ReadsAt j { faithful := f, moves := false }
      (List.Forall₂ R)
      (if stop t then pure []
        else item >>= fun a => manyFrom stop item n >>= fun rest => pure (a :: rest))
      (if stop t' then pure []
        else item' >>= fun a => manyFrom stop item' m >>= fun rest => pure (a :: rest)) := by
    -- Whether to stop is seen by the token, the same on both sides.
    intro j hij t t' ht
    rw [hstop t t' ht]
    refine .mono (.ite (fun _ => .of_pure .nil) fun _ => hmore j hij) ?_
    simp [Grade.Below, Grade.orElse]
  refine .mono ((hpeek i).bind_rel hT fun j hij _ t t' ht => hnext j hij t t' ht) ?_
  simp [Grade.Below, Grade.andThen]

/-- Items up to a token that the end of the source may be. -/
theorem reads_manyUntil {R : α → α → Prop} (hR : ∀ a, R a a) {stop : Token → Bool}
    (hstop : ∀ t line, stop { t with line } = stop t) {item item' : Parser α}
    (hitem : c.Reads .moving R item item') :
    c.Reads .loose (List.Forall₂ R) (manyUntil stop item) (manyUntil stop item') :=
  .of_step (readsAt_manyFrom hR Token.Moved.refl reads_peek_moved
    (fun t _ ⟨line, h⟩ => by rw [h, hstop t line]) hitem)

/-- Items up to a token, both ends of the part being such tokens or both being none. -/
theorem reads_manyUntil_strict {R : α → α → Prop} (hR : ∀ a, R a a) {stop : Token → Bool}
    (hstop : ∀ t t', c.Meets t t' → stop t' = stop t) {item item' : Parser α}
    (hitem : c.Reads .closing R item item') :
    c.Reads .strict (List.Forall₂ R) (manyUntil stop item) (manyUntil stop item') :=
  .of_step (readsAt_manyFrom hR Meets.refl reads_peek hstop hitem)

/-- Lists with the same items are the same. -/
theorem Reads.of_forall₂ {p q : Parser (List α)} (h : c.Reads g (List.Forall₂ Eq) p q) :
    c.Reads g Eq p q := h.imp fun _ _ h => List.forall₂_eq_eq_eq ▸ h

/-- Further items each stand behind a separator. -/
theorem reads_moreBy (sep : String) {item item' : Parser α} (hitem : c.Reads .loose Eq item item') :
    c.Reads .loose Eq (get >>= fun s => moreBy sep item s.rest.length)
      (get >>= fun s => moreBy sep item' s.rest.length) := by
  refine .of_step fun n m i hrec => ?_
  have hmore : ∀ j, i < j → c.ReadsAt j .loose Eq
      (item >>= fun a => moreBy sep item n >>= fun rest => pure (a :: rest))
      (item' >>= fun a => moreBy sep item' m >>= fun rest => pure (a :: rest)) := by
    intro j hij
    exact .mono ((hitem j).bind_at fun k hjk _ a => (hrec k (Nat.lt_of_lt_of_le hij hjk)).bind_at
      fun _ _ _ rest => .of_pure rfl) (by decide)
  exact .mono (.accept sep hmore fun _ _ => .of_pure rfl) (by decide)

/-- Items with separators between them; the first one takes a token. -/
theorem reads_sepBy (sep : String) {item item' : Parser α} (hitem : c.Reads .moving Eq item item') :
    c.Reads .moving Eq (sepBy sep item) (sepBy sep item') := by
  have hmore : ∀ a, c.Reads .loose Eq
      (get >>= fun s => moreBy sep item s.rest.length >>= fun rest => pure (a :: rest))
      (get >>= fun s => moreBy sep item' s.rest.length >>= fun rest => pure (a :: rest)) :=
    fun a => .mono (.length_bind (reads_moreBy sep (hitem.mono (by decide))) fun _ => .of_pure rfl)
      (by decide)
  exact .mono (hitem.bind hmore) (by decide)

/-- Items in brackets, the last of which a separator may follow. -/
theorem reads_itemsFrom (close : String) {item item' : Parser α}
    (hitem : c.Reads .loose Eq item item') :
    c.Reads .loose Eq (get >>= fun s => itemsFrom close item s.rest.length)
      (get >>= fun s => itemsFrom close item' s.rest.length) := by
  refine .of_step fun n m i hrec => ?_
  have hrest : ∀ a j, i < j → c.ReadsAt j .loose Eq
      (itemsFrom close item n >>= fun rest => pure (a :: rest))
      (itemsFrom close item' m >>= fun rest => pure (a :: rest)) := by
    intro a j hij
    exact .mono ((hrec j hij).bind_at fun _ _ _ rest => .of_pure rfl) (by decide)
  have hmore : ∀ j, i ≤ j → c.ReadsAt j .loose Eq
      (item >>= fun a => Parser.accept "," >>= fun more =>
        if more then itemsFrom close item n >>= fun rest => pure (a :: rest) else pure [a])
      (item' >>= fun a => Parser.accept "," >>= fun more =>
        if more then itemsFrom close item' m >>= fun rest => pure (a :: rest) else pure [a]) := by
    intro j hij
    exact .mono ((hitem j).bind_at fun k hjk _ a =>
      .accept "," (fun l hkl => hrest a l (by omega)) fun _ _ => .of_pure rfl) (by decide)
  exact .mono ((reads_atSymbol close i).bind_at fun j hij _ _ =>
    .ite (fun _ => .of_pure rfl) fun _ => hmore j hij) (by decide)

/-- The closing bracket keeps items from going on behind the part. -/
theorem reads_bracketed (openSymbol close : String) {item item' : Parser α}
    (hitem : c.Reads .loose Eq item item') :
    c.Reads .closing Eq (bracketed openSymbol close item) (bracketed openSymbol close item') := by
  have hitems : c.Reads .closing Eq
      (get >>= fun s => itemsFrom close item s.rest.length >>= fun items =>
        expect close >>= fun _ => pure items)
      (get >>= fun s => itemsFrom close item' s.rest.length >>= fun items =>
        expect close >>= fun _ => pure items) :=
    .mono (.length_bind (reads_itemsFrom close hitem) fun _ =>
      (reads_expect close).bind fun _ => .of_pure rfl) (by decide)
  exact .mono ((reads_expect openSymbol).bind fun _ => hitems) (by decide)

/-- An item that may be missing in front of a symbol. -/
theorem reads_unlessSymbol (sym : String) {item item' : Parser α}
    (hitem : c.Reads .loose Eq item item') :
    c.Reads .loose Eq (unlessSymbol sym item) (unlessSymbol sym item') := by
  have hsome : c.Reads .loose Eq (some <$> item) (some <$> item') := by
    rw [map_eq_pure_bind, map_eq_pure_bind]
    exact .mono (hitem.bind fun _ => .of_pure rfl) (by decide)
  exact .mono ((reads_atSymbol sym).bind fun _ => .ite (fun _ => .of_pure rfl) fun _ => hsome)
    (by decide)

/-! ## Source text -/

/-- The text of tokens does not tell their lines. -/
theorem textOfTokens_moved {ts ts' : List Token} (h : List.Forall₂ Token.Moved ts ts') :
    textOfTokens ts = textOfTokens ts' := by
  have hjoin : ∀ {ts ts' : List Token}, List.Forall₂ Token.Moved ts ts' →
      (ts.map fun t => t.leadText ++ t.text) = ts'.map fun t => t.leadText ++ t.text := by
    intro ts ts' h
    induction h with
    | nil => rfl
    | cons ht _ ih =>
      obtain ⟨line, rfl⟩ := ht
      rw [List.map_cons, List.map_cons, ih]
      rfl
  cases h with
  | nil => rfl
  | cons ht h =>
    obtain ⟨line, rfl⟩ := ht
    rw [textOfTokens, textOfTokens, hjoin h]

/-- The source text from one place in the part to another is the same in the whole. -/
theorem text_since {s' t' : ParserState} (hs : c.Alone i s) (ht : c.Whole i t)
    (hs' : c.Alone j s') (ht' : c.Whole j t') :
    textOfTokens (s.rest.take (s'.taken - s.taken)) =
      textOfTokens (t.rest.take (t'.taken - t.taken)) := by
  have hcount : s'.taken - s.taken = j - i := by rw [hs.taken, hs'.taken]; omega
  have hcount' : t'.taken - t.taken = j - i := by rw [ht.taken, ht'.taken]; omega
  have hj : j - i ≤ (c.part.drop i).length := by
    rw [List.length_drop]
    exact Nat.sub_le_sub_right hs'.le i
  have hj' : j - i ≤ (c.moved.drop i).length := by
    rw [List.length_drop, length_moved]
    exact Nat.sub_le_sub_right hs'.le i
  have hi' : i ≤ c.moved.length := by rw [length_moved]; exact hs.le
  rw [hcount, hcount', hs.rest, ht.rest, List.drop_append_of_le_length hs.le,
    List.drop_append_of_le_length hi', List.take_append_of_le_length hj,
    List.take_append_of_le_length hj']
  exact textOfTokens_moved (List.forall₂_take _ (List.forall₂_drop _ c.moved_of_part))

/-- The text that a parser has read is the same too. -/
theorem reads_withText {p q : Parser α} (h : c.Reads g Eq p q) :
    c.Reads g Eq (withText p) (withText q) := by
  intro i s t a s' hs ht hrun
  obtain ⟨_, _, hget, hrun⟩ := run_bind_eq_ok.1 hrun
  cases hget
  obtain ⟨b, _, hp, hrun⟩ := run_bind_eq_ok.1 hrun
  cases hrun
  obtain ⟨j, hij, hmoves, hs', hsame⟩ := h i hs ht hp
  refine ⟨j, hij, hmoves, hs', hsame.imp_right ?_⟩
  rintro ⟨b', t', hq, rfl, ht'⟩
  refine ⟨_, t', run_bind_eq_ok.2 ⟨t, t, rfl, run_bind_eq_ok.2 ⟨b, t', hq, rfl⟩⟩, ?_, ht'⟩
  rw [text_since hs ht hs' ht']

theorem reads_sourceOf {p q : Parser α} (h : c.Reads g Eq p q) :
    c.Reads g Eq (sourceOf p) (sourceOf q) := by
  refine .mono ((reads_withText h).bind fun _ => .of_pure rfl) ?_
  simp [Grade.Below, Grade.andThen]

/-- A parser whose error is put into other words succeeds just as it does. -/
theorem run_tryCatch_throw {p : Parser α} {e : SyntaxError} {r : α × ParserState} :
    (tryCatch p fun _ => throw e : Parser α).run s = .ok r ↔ p.run s = .ok r := by
  change tryCatch (p.run s) (fun _ => .error e) = _ ↔ _
  cases p.run s with
  | error e => exact iff_of_false nofun nofun
  | ok r => exact Iff.rfl

/-- What is looked at for the error alone makes no difference. -/
theorem reads_orUnexpected {p q : Parser α} (h : c.Reads g Eq p q) :
    c.Reads g Eq (orUnexpected p) (orUnexpected q) := by
  have hrun : ∀ (p : Parser α) (s : ParserState) (r : α × ParserState),
      (orUnexpected p).run s = .ok r ↔ p.run s = .ok r := by
    intro p s r
    unfold orUnexpected firstLine
    rw [run_peek_bind, bind_assoc, StateT.run_bind, StateT.run_get]
    exact run_tryCatch_throw
  intro i s t a s' hs ht hp
  obtain ⟨j, hij, hmoves, hs', hsame⟩ := h i hs ht ((hrun p s _).1 hp)
  refine ⟨j, hij, hmoves, hs', hsame.imp_right ?_⟩
  rintro ⟨b, t', hq, hab, ht'⟩
  exact ⟨b, t', (hrun q t _).2 hq, hab, ht'⟩

end Seam
end ApiCatalog.Php
