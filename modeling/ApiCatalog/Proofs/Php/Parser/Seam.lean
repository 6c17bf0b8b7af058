import ApiCatalog.Php.Parser.Basic
import Mathlib.Data.List.Forall2

/-!
# Reading a part in place

The tokens of a part of a source file stand in the whole file too, on other lines, and there a
namespace or the end of the file follows where the part alone ends. A parser that reads the part
alone reads the same in the whole, as long as it does not look across the end. What it may have
done at the end is kept track of by two flags: whether it does there what it does in the whole,
and whether it reads a token, so that it cannot succeed there at all. A parser that looks across
the end is put right by one behind it that has to read a token.
-/

namespace ApiCatalog.Php

/-- The same token on a line of its own. -/
def Token.Moved (t t' : Token) : Prop := ∃ line, t' = { t with line }

/-- A symbol that a statement can end with: a semicolon, a brace, or the colon of a label. -/
def Token.endsStatement (t : Token) : Bool :=
  t.kind == .symbol && [";", "\x7d", ":"].contains t.text

/-- The tokens of a part of a source file alone and in the whole file, and how many tokens stand
in front of them in either. -/
structure Seam where
  part : List Token
  /-- The end of the part, where it is alone. -/
  stop : Token
  moved : List Token
  /-- What comes next in the whole file. -/
  next : Token
  behind : List Token
  before : Nat
  beforeMoved : Nat
  moved_of_part : List.Forall₂ Token.Moved part moved
  stop_kind : stop.kind = .stop
  next_kind : next.kind = .stop ∨ next.kind = .word ∧ next.keyword = "namespace"
  inside : ∀ t ∈ part ++ [stop], t.followsMarkup = false
  ends : ∃ t, part.getLast? = some t ∧ t.endsStatement

namespace Seam

variable (c : Seam)

/-- Alone, `i` tokens of the part are read. -/
structure Alone (i : Nat) (s : ParserState) : Prop where
  le : i ≤ c.part.length
  rest : s.rest = (c.part ++ [c.stop]).drop i
  taken : s.taken = c.before + i

/-- In the whole file, `i` tokens of the part are read. -/
structure Whole (i : Nat) (t : ParserState) : Prop where
  rest : t.rest = (c.moved ++ c.next :: c.behind).drop i
  taken : t.taken = c.beforeMoved + i

/-- What is known of a parser of the part: `faithful` that its success is the same in the whole
even where it ends at the end of the part, and `moves` that it reads a token. -/
structure Grade where
  faithful : Bool
  moves : Bool

namespace Grade

/-- One parser and then another. -/
def andThen (g g' : Grade) : Grade :=
  { faithful := g'.faithful && (g.faithful || g'.moves), moves := g.moves || g'.moves }

/-- One parser or another. -/
def orElse (g g' : Grade) : Grade :=
  { faithful := g.faithful && g'.faithful, moves := g.moves && g'.moves }

/-- Less is known of `g` than of `g'`. -/
def Below (g g' : Grade) : Prop := (g.faithful → g'.faithful) ∧ (g.moves → g'.moves)

instance (g g' : Grade) : Decidable (g.Below g') := inferInstanceAs (Decidable (_ ∧ _))

/-- Nothing is known at the end of the part. -/
abbrev loose : Grade := { faithful := false, moves := false }

/-- A token is read. -/
abbrev moving : Grade := { faithful := false, moves := true }

/-- The end of the part makes no difference. -/
abbrev strict : Grade := { faithful := true, moves := false }

/-- A token is read, and the end of the part makes no difference. -/
abbrev closing : Grade := { faithful := true, moves := true }

end Grade

variable {α β : Type} {c : Seam} {g g' : Grade} {i j : Nat} {s t : ParserState}

/-- Where `p` succeeds on the part alone with `i` tokens read, `q` does in the whole, and reads the
same tokens and a value related by `R`; unless `p` ends at the end of the part, where only the
grade says so. -/
def ReadsAt (c : Seam) (i : Nat) (g : Grade) (R : α → α → Prop) (p q : Parser α) : Prop :=
  ∀ ⦃s t a s'⦄, c.Alone i s → c.Whole i t → p.run s = .ok (a, s') →
    ∃ j, i ≤ j ∧ (g.moves → i < j) ∧ c.Alone j s' ∧
      ((g.faithful = false ∧ j = c.part.length) ∨
        ∃ b t', q.run t = .ok (b, t') ∧ R a b ∧ c.Whole j t')

/-- The same wherever in the part the parser starts. -/
def Reads (c : Seam) (g : Grade) (R : α → α → Prop) (p q : Parser α) : Prop :=
  ∀ i, c.ReadsAt i g R p q

/-! ## Runs -/

/-- One parser behind another succeeds if both do. -/
theorem run_bind_eq_ok {p : Parser α} {f : α → Parser β} {b : β} {s' : ParserState} :
    (p >>= f).run s = .ok (b, s') ↔ ∃ a s₁, p.run s = .ok (a, s₁) ∧ (f a).run s₁ = .ok (b, s') := by
  rw [StateT.run_bind]
  cases h : p.run s with
  | error e => simp [bind, Except.bind]
  | ok r =>
    obtain ⟨a, s₁⟩ := r
    simp [bind, Except.bind]

theorem run_pure_eq_ok {a b : α} {s' : ParserState} :
    (pure a : Parser α).run s = .ok (b, s') ↔ a = b ∧ s = s' := by
  rw [StateT.run_pure]
  exact ⟨fun h => by cases h; exact ⟨rfl, rfl⟩, fun h => by rw [h.1, h.2]; rfl⟩

/-! ## Positions -/

theorem length_moved (c : Seam) : c.moved.length = c.part.length :=
  c.moved_of_part.length_eq.symm

/-- Every place of the part is a place of the whole. -/
theorem exists_whole (c : Seam) (i : Nat) : ∃ t, c.Whole i t :=
  ⟨{ rest := (c.moved ++ c.next :: c.behind).drop i, taken := c.beforeMoved + i }, rfl, rfl⟩

/-- Inside the part the next token is the same alone and in the whole. -/
theorem exists_token (hi : i < c.part.length) :
    ∃ t t', c.part[i]? = some t ∧ t.Moved t' ∧
      (∀ s, c.Alone i s → s.rest = t :: (c.part ++ [c.stop]).drop (i + 1)) ∧
      ∀ s, c.Whole i s → s.rest = t' :: (c.moved ++ c.next :: c.behind).drop (i + 1) := by
  have hi' : i < c.moved.length := by rw [length_moved]; exact hi
  have hA : i < (c.part ++ [c.stop]).length := by rw [List.length_append]; omega
  have hW : i < (c.moved ++ c.next :: c.behind).length := by rw [List.length_append]; omega
  refine ⟨c.part[i], c.moved[i], List.getElem?_eq_getElem hi, ?_, ?_, ?_⟩
  · exact (List.forall₂_iff_get.1 c.moved_of_part).2 i hi hi'
  · intro s hs
    rw [hs.rest, List.drop_eq_getElem_cons hA, List.getElem_append_left hi]
  · intro s hs
    rw [hs.rest, List.drop_eq_getElem_cons hW, List.getElem_append_left hi']

theorem Alone.rest_end (h : c.Alone c.part.length s) : s.rest = [c.stop] := by
  rw [h.rest, List.drop_left]

theorem Whole.rest_end (h : c.Whole c.part.length s) : s.rest = c.next :: c.behind := by
  rw [h.rest, ← length_moved, List.drop_left]

/-! ## Parsers one after the other -/

/-- A grade that promises less may stand for one that promises more. -/
theorem ReadsAt.mono {R : α → α → Prop} {p q : Parser α} (h : c.ReadsAt i g R p q)
    (hg : g'.Below g) : c.ReadsAt i g' R p q := by
  intro s t a s' hs ht hp
  obtain ⟨j, hij, hmoves, hs', hsame⟩ := h hs ht hp
  refine ⟨j, hij, fun hg' => hmoves (hg.2 hg'), hs', hsame.imp_left fun hend => ⟨?_, hend.2⟩⟩
  cases hf : g'.faithful with
  | false => rfl
  | true => rw [hg.1 hf] at hend; cases hend.1

theorem Reads.mono {R : α → α → Prop} {p q : Parser α} (h : c.Reads g R p q)
    (hg : g'.Below g) : c.Reads g' R p q := fun i => (h i).mono hg

/-- A parser does not start behind the end of the part. -/
theorem ReadsAt.of_le {R : α → α → Prop} {p q : Parser α}
    (h : i ≤ c.part.length → c.ReadsAt i g R p q) : c.ReadsAt i g R p q := by
  intro s t a s' hs ht hp
  exact h hs.le hs ht hp

/-- A value is read without a token. -/
theorem ReadsAt.of_pure {R : α → α → Prop} {a b : α} (h : R a b) :
    c.ReadsAt i .strict R (pure a) (pure b) := by
  intro s t a' s' hs ht hp
  obtain ⟨rfl, rfl⟩ := run_pure_eq_ok.1 hp
  exact ⟨i, Nat.le_refl i, Bool.false_ne_true.elim, hs, .inr ⟨b, t, rfl, h, ht⟩⟩

theorem Reads.of_pure {R : α → α → Prop} {a b : α} (h : R a b) :
    c.Reads .strict R (pure a) (pure b) := fun _ => .of_pure h

/-- The second parser starts behind the first. Where the first ends at the end of the part and the
second has to read a token, the two together do not succeed. -/
theorem ReadsAt.bind_rel {R : α → α → Prop} {S : β → β → Prop} {p q : Parser α}
    {f f' : α → Parser β} (hp : c.ReadsAt i g R p q) (hR : ∀ a, R a a)
    (hf : ∀ j, i ≤ j → (g.moves → i < j) → ∀ a b, R a b → c.ReadsAt j g' S (f a) (f' b)) :
    c.ReadsAt i (g.andThen g') S (p >>= f) (q >>= f') := by
  intro s t b s' hs ht hrun
  -- The run of the whole is that of `p` followed by that of `f` from where `p` ended.
  obtain ⟨a, s₁, hpa, hfb⟩ := run_bind_eq_ok.1 hrun
  obtain ⟨j, hij, hmoves, hs₁, hsame⟩ := hp hs ht hpa
  have hfirst : (g.andThen g').moves → ∀ k, j ≤ k → (g'.moves → j < k) → i < k := by
    intro hg k hjk hk
    rcases Bool.or_eq_true_iff.1 hg with h | h
    · exact Nat.lt_of_lt_of_le (hmoves h) hjk
    · exact Nat.lt_of_le_of_lt hij (hk h)
  rcases hsame with ⟨hloose, hj⟩ | ⟨a', t₁, hqa, hR', ht₁⟩
  · -- The whole is not followed any more; that it could have been tells where `f a` ends.
    obtain ⟨t₁, ht₁⟩ := c.exists_whole j
    obtain ⟨k, hjk, hk, hs', -⟩ := hf j hij hmoves a a (hR a) hs₁ ht₁ hfb
    have hke : k = c.part.length := Nat.le_antisymm hs'.le (hj ▸ hjk)
    refine ⟨k, Nat.le_trans hij hjk, fun hg => hfirst hg k hjk hk, hs', .inl ⟨?_, hke⟩⟩
    cases hm : g'.moves with
    | false => simp [Grade.andThen, hloose, hm]
    | true =>
      have := hk hm
      omega
  · obtain ⟨k, hjk, hk, hs', hsame⟩ := hf j hij hmoves a a' hR' hs₁ ht₁ hfb
    refine ⟨k, Nat.le_trans hij hjk, fun hg => hfirst hg k hjk hk, hs', hsame.imp ?_ ?_⟩
    · rintro ⟨hloose, hke⟩
      exact ⟨by simp [Grade.andThen, hloose], hke⟩
    · rintro ⟨b', t', hqb, hS, ht'⟩
      exact ⟨b', t', run_bind_eq_ok.2 ⟨a', t₁, hqa, hqb⟩, hS, ht'⟩

/-- The second parser may count on where the first one ended. -/
theorem ReadsAt.bind_at {S : β → β → Prop} {p q : Parser α} {f f' : α → Parser β}
    (hp : c.ReadsAt i g Eq p q)
    (hf : ∀ j, i ≤ j → (g.moves → i < j) → ∀ a, c.ReadsAt j g' S (f a) (f' a)) :
    c.ReadsAt i (g.andThen g') S (p >>= f) (q >>= f') := by
  refine hp.bind_rel (fun _ => rfl) ?_
  rintro j hij hmoves a _ rfl
  exact hf j hij hmoves a

/-- One parser behind another reads what both do. -/
theorem Reads.bind {S : β → β → Prop} {p q : Parser α} {f f' : α → Parser β}
    (hp : c.Reads g Eq p q) (hf : ∀ a, c.Reads g' S (f a) (f' a)) :
    c.Reads (g.andThen g') S (p >>= f) (q >>= f') :=
  fun i => (hp i).bind_at fun j _ _ a => hf a j

theorem Reads.bind_rel {R : α → α → Prop} {S : β → β → Prop} {p q : Parser α}
    {f f' : α → Parser β} (hp : c.Reads g R p q) (hR : ∀ a, R a a)
    (hf : ∀ a b, R a b → c.Reads g' S (f a) (f' b)) :
    c.Reads (g.andThen g') S (p >>= f) (q >>= f') :=
  fun i => (hp i).bind_rel hR fun j _ _ a b hab => hf a b hab j

/-- A choice that does not depend on the tokens reads what either side does. -/
theorem ReadsAt.ite {R : α → α → Prop} {p q p' q' : Parser α} {b : Prop} [Decidable b]
    (h : b → c.ReadsAt i g R p q) (h' : ¬b → c.ReadsAt i g' R p' q') :
    c.ReadsAt i (g.orElse g') R (if b then p else p') (if b then q else q') := by
  by_cases hb : b
  · rw [if_pos hb, if_pos hb]
    exact (h hb).mono ⟨fun hg => (Bool.and_eq_true_iff.1 hg).1, fun hg => (Bool.and_eq_true_iff.1 hg).1⟩
  · rw [if_neg hb, if_neg hb]
    exact (h' hb).mono ⟨fun hg => (Bool.and_eq_true_iff.1 hg).2, fun hg => (Bool.and_eq_true_iff.1 hg).2⟩

theorem Reads.ite {R : α → α → Prop} {p q p' q' : Parser α} {b : Prop} [Decidable b]
    (h : b → c.Reads g R p q) (h' : ¬b → c.Reads g' R p' q') :
    c.Reads (g.orElse g') R (if b then p else p') (if b then q else q') :=
  fun i => .ite (fun hb => h hb i) fun hb => h' hb i

/-- Values may be compared more loosely. -/
theorem Reads.imp {R S : α → α → Prop} {p q : Parser α} (h : c.Reads g R p q)
    (hRS : ∀ a b, R a b → S a b) : c.Reads g S p q := by
  intro i s t a s' hs ht hp
  obtain ⟨j, hij, hmoves, hs', hsame⟩ := h i hs ht hp
  refine ⟨j, hij, hmoves, hs', hsame.imp_right ?_⟩
  rintro ⟨b, t', hq, hR, ht'⟩
  exact ⟨b, t', hq, hRS a b hR, ht'⟩

/-- A parser that never succeeds. -/
theorem Reads.of_fails {R : α → α → Prop} {p q : Parser α} (h : ∀ s, ∃ e, p.run s = .error e) :
    c.Reads .closing R p q := by
  intro i s t a s' hs ht hp
  obtain ⟨e, he⟩ := h s
  rw [he] at hp
  cases hp

end Seam
end ApiCatalog.Php
