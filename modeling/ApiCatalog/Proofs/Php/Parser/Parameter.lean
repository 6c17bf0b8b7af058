import ApiCatalog.Php.Parser.Signature
import ApiCatalog.Proofs.Php.Parser.Basic

/-!
# How parameters are declared

A parameter that is read stands in one of six forms: by value or by reference, and either plain, of
variable length, or promoted to a property. The form says which marks stand in front of the
variable, and which of them end up in the name of the parameter (`run_signature_parameters`).
-/

namespace ApiCatalog.Php

/-- The forms of a parameter's declaration. -/
inductive ParameterForm where
  | plain
  | byReference
  | variadic
  | variadicByReference
  /-- Also a property. -/
  | promoted
  | promotedByReference
deriving DecidableEq

namespace ParameterForm

/-- The marks in front of the variable. -/
def marks : ParameterForm → List String
  | plain | promoted => []
  | byReference | promotedByReference => ["&"]
  | variadic => ["..."]
  | variadicByReference => ["&", "..."]

/-- A modifier stands in front of the parameter. -/
def isPromoted : ParameterForm → Bool
  | promoted | promotedByReference => true
  | _ => false

/-- The name of a parameter with this variable. The mark of a property is part of it, with what
stands between the two. -/
def nameOf (form : ParameterForm) (var : Token) : String :=
  if form = promotedByReference then "&" ++ var.leadText ++ var.text else var.text

end ParameterForm

namespace Parser

open Seam

variable {α : Type} {r : Rules} {s s' : ParserState} {p : Parameter}

/-! ## What a run reads -/

theorem not_run_fail {a : α} : ¬ (fail : Parser α).run s = .ok (a, s') := by
  obtain ⟨e, he⟩ := run_fail (α := α) s
  rw [he]
  exact nofun

/-- From `s` to `s'`, the token was read. -/
structure Takes (t : Token) (s s' : ParserState) : Prop where
  rest : s.rest = t :: s'.rest
  taken : s'.taken = s.taken + 1

theorem run_advance_eq_ok {t : Token} (h : advance.run s = .ok (t, s')) : Takes t s s' := by
  cases hrest : s.rest with
  | nil =>
    have hfail : advance.run s = (fail : Parser Token).run s := by
      unfold advance
      rw [run_get_bind, hrest]
    rw [hfail] at h
    exact absurd h not_run_fail
  | cons next rest =>
    rw [run_advance_cons hrest] at h
    split at h
    · exact absurd h not_run_fail
    · cases h
      exact ⟨hrest, rfl⟩

theorem ahead_of_takes {t : Token} (h : Takes t s s') : ahead 0 s = t := by
  rw [ahead, h.rest]
  rfl

/-- A symbol is read if it comes next, and else nothing. -/
theorem run_accept_eq_ok {symbol : String} {b : Bool} (h : (accept symbol).run s = .ok (b, s')) :
    (b = true ∧ ∃ t, Takes t s s' ∧ t.isSymbol symbol) ∨ (b = false ∧ s' = s) := by
  unfold accept atSymbol at h
  rw [bind_assoc, run_peek_bind, pure_bind] at h
  split at h
  · next hsymbol =>
    obtain ⟨t, s₁, hadvance, hpure⟩ := run_bind_eq_ok.1 h
    obtain ⟨rfl, rfl⟩ := run_pure_eq_ok.1 hpure
    have htakes := run_advance_eq_ok hadvance
    rw [ahead_of_takes htakes] at hsymbol
    exact .inl ⟨rfl, t, htakes, hsymbol⟩
  · obtain ⟨rfl, rfl⟩ := run_pure_eq_ok.1 h
    exact .inr ⟨rfl, rfl⟩

theorem run_variableToken_eq_ok {text : String} (h : variableToken.run s = .ok (text, s')) :
    ∃ t, Takes t s s' ∧ t.kind = .variable ∧ t.text = text := by
  unfold variableToken at h
  rw [run_peek_bind] at h
  split at h
  · next hkind =>
    obtain ⟨t, s₁, hadvance, hpure⟩ := run_bind_eq_ok.1 h
    obtain ⟨rfl, rfl⟩ := run_pure_eq_ok.1 hpure
    have htakes := run_advance_eq_ok hadvance
    rw [ahead_of_takes htakes, beq_iff_eq] at hkind
    exact ⟨t, htakes, hkind, rfl⟩
  · exact absurd h not_run_fail

/-- The text of what is read is that of the tokens that are. -/
theorem run_withText_eq_ok {q : Parser α} {text : String} {a : α}
    (h : (withText q).run s = .ok ((text, a), s')) :
    q.run s = .ok (a, s') ∧ text = textOfTokens (s.rest.take (s'.taken - s.taken)) := by
  unfold withText at h
  rw [run_get_bind] at h
  obtain ⟨b, s₁, hq, hrest⟩ := run_bind_eq_ok.1 h
  rw [run_get_bind] at hrest
  obtain ⟨heq, rfl⟩ := run_pure_eq_ok.1 hrest
  obtain ⟨rfl, rfl⟩ := Prod.mk.inj heq
  exact ⟨hq, rfl⟩

/-! ## One parameter -/

/-- From `s` to `s'`, the parameter is declared in the form, with this variable: attributes,
modifiers if it is promoted, a type or none, the marks of the form, the variable, and a default or
none. -/
structure Declares (r : Rules) (form : ParameterForm) (var : Token) (p : Parameter)
    (s s' : ParserState) : Prop where
  steps : ∃ s₁ s₂ s₃ s₄ modifiers marks,
    (attributes r).run s = .ok ((), s₁) ∧
    (modifiersOf promotionKeywords).run s₁ = .ok (modifiers, s₂) ∧
    modifiers.isEmpty = !form.isPromoted ∧
    parameterType.run s₂ = .ok (p.type, s₃) ∧
    s₃.rest = marks ++ var :: s₄.rest ∧
    (∀ m ∈ marks, m.kind = .symbol) ∧ marks.map Token.text = form.marks ∧
    (initialValue r).run s₄ = .ok (p.default, s')
  kind : var.kind = .variable
  name : p.name = form.nameOf var

theorem kind_of_isSymbol {t : Token} {symbol : String} (h : t.isSymbol symbol) :
    t.kind = .symbol ∧ t.text = symbol := by
  simpa [Token.isSymbol] using h

/-- The marks and the variable, with the text of both and of the variable alone. -/
theorem run_parameterVariable {promoted : Bool} {written : String × String}
    (h : (withText (parameterVariable promoted)).run s = .ok (written, s')) :
    ∃ (form : ParameterForm) (marks : List Token) (var : Token),
      form.isPromoted = promoted ∧ s.rest = marks ++ var :: s'.rest ∧
      (∀ m ∈ marks, m.kind = .symbol) ∧ marks.map Token.text = form.marks ∧
      var.kind = .variable ∧
      (if promoted then written.1 else written.2) = form.nameOf var := by
  obtain ⟨hread, htext⟩ := run_withText_eq_ok h
  unfold parameterVariable at hread
  obtain ⟨b, s₁, hamp, hrest⟩ := run_bind_eq_ok.1 hread
  cases promoted with
  | true =>
    obtain ⟨t, ht, hkind, hname⟩ := run_variableToken_eq_ok hrest
    rcases run_accept_eq_ok hamp with ⟨-, m, hm, hsymbol⟩ | ⟨-, rfl⟩
    · obtain ⟨hmark, hmarkText⟩ := kind_of_isSymbol hsymbol
      -- The text is that of two tokens and of what stands between them.
      have htaken : s'.taken - s.taken = 2 := by rw [ht.taken, hm.taken]; omega
      refine ⟨.promotedByReference, [m], t, rfl, ?_, by simpa using hmark, by simp [hmarkText,
        ParameterForm.marks], hkind, ?_⟩
      · rw [hm.rest, ht.rest]
        rfl
      · rw [if_pos rfl, htext, htaken, hm.rest, ht.rest]
        simp [textOfTokens, ParameterForm.nameOf, hmarkText, String.append_assoc]
    · have htaken : s'.taken - s₁.taken = 1 := by rw [ht.taken]; omega
      refine ⟨.promoted, [], t, rfl, ht.rest, by simp, rfl, hkind, ?_⟩
      rw [if_pos rfl, htext, htaken, ht.rest]
      simp [textOfTokens, ParameterForm.nameOf]
  | false =>
    obtain ⟨b', s₂, hdots, hvariable⟩ := run_bind_eq_ok.1 hrest
    obtain ⟨t, ht, hkind, hname⟩ := run_variableToken_eq_ok hvariable
    rcases run_accept_eq_ok hamp with ⟨-, m, hm, hsymbol⟩ | ⟨-, rfl⟩
    · obtain ⟨hmark, hmarkText⟩ := kind_of_isSymbol hsymbol
      rcases run_accept_eq_ok hdots with ⟨-, d, hd, hsymbol'⟩ | ⟨-, rfl⟩
      · obtain ⟨hdot, hdotText⟩ := kind_of_isSymbol hsymbol'
        refine ⟨.variadicByReference, [m, d], t, rfl, ?_, by simp [hmark, hdot], by
          simp [hmarkText, hdotText, ParameterForm.marks], hkind, hname.symm⟩
        rw [hm.rest, hd.rest, ht.rest]
        rfl
      · refine ⟨.byReference, [m], t, rfl, ?_, by simpa using hmark, by
          simp [hmarkText, ParameterForm.marks], hkind, hname.symm⟩
        rw [hm.rest, ht.rest]
        rfl
    · rcases run_accept_eq_ok hdots with ⟨-, d, hd, hsymbol'⟩ | ⟨-, rfl⟩
      · obtain ⟨hdot, hdotText⟩ := kind_of_isSymbol hsymbol'
        refine ⟨.variadic, [d], t, rfl, ?_, by simpa using hdot, by
          simp [hdotText, ParameterForm.marks], hkind, hname.symm⟩
        rw [hd.rest, ht.rest]
        rfl
      · exact ⟨.plain, [], t, rfl, ht.rest, by simp, rfl, hkind, hname.symm⟩

/-- Whatever is read as a parameter is declared in one of the forms. -/
theorem run_parameter (h : (parameter r).run s = .ok (p, s')) :
    ∃ form var, Declares r form var p s s' := by
  unfold parameter at h
  obtain ⟨⟨⟩, s₁, hattributes, h⟩ := run_bind_eq_ok.1 h
  obtain ⟨modifiers, s₂, hmodifiers, h⟩ := run_bind_eq_ok.1 h
  obtain ⟨type, s₃, htype, h⟩ := run_bind_eq_ok.1 h
  obtain ⟨written, s₄, hwritten, h⟩ := run_bind_eq_ok.1 h
  obtain ⟨default, s₅, hdefault, h⟩ := run_bind_eq_ok.1 h
  obtain ⟨rfl, rfl⟩ := run_pure_eq_ok.1 h
  obtain ⟨form, marks, var, hform, hrest, hsymbols, hmarks, hkind, hname⟩ :=
    run_parameterVariable hwritten
  have hpromoted : modifiers.isEmpty = !form.isPromoted := by rw [hform, Bool.not_not]
  refine ⟨form, var, ⟨s₁, s₂, s₃, s₄, modifiers, marks, hattributes, hmodifiers, hpromoted,
    htype, hrest, hsymbols, hmarks, hdefault⟩, hkind, ?_⟩
  -- The parser asks whether there is no modifier, the form whether there is one.
  rw [← hname]
  cases modifiers.isEmpty with
  | true => rfl
  | false => rfl

/-! ## The parameters of a function -/

/-- Each of the items between brackets is read somewhere. -/
theorem run_itemsFrom {close : String} {item : Parser α} {fuel : Nat} {items : List α}
    (h : (itemsFrom close item fuel).run s = .ok (items, s')) :
    ∀ a ∈ items, ∃ s₁ s₂, item.run s₁ = .ok (a, s₂) := by
  induction fuel generalizing s s' items with
  | zero =>
    obtain ⟨rfl, -⟩ := run_pure_eq_ok.1 h
    exact nofun
  | succ fuel ih =>
    -- One round ends at the bracket, or behind an item without a comma, or goes on.
    unfold itemsFrom at h
    obtain ⟨closed, s₁, -, h⟩ := run_bind_eq_ok.1 h
    split at h
    · obtain ⟨rfl, -⟩ := run_pure_eq_ok.1 h
      exact nofun
    · obtain ⟨first, s₂, hfirst, h⟩ := run_bind_eq_ok.1 h
      obtain ⟨comma, s₃, -, h⟩ := run_bind_eq_ok.1 h
      split at h
      · obtain ⟨more, s₄, hmore, h⟩ := run_bind_eq_ok.1 h
        obtain ⟨rfl, -⟩ := run_pure_eq_ok.1 h
        exact List.forall_mem_cons.2 ⟨⟨s₁, s₂, hfirst⟩, ih hmore⟩
      · obtain ⟨rfl, -⟩ := run_pure_eq_ok.1 h
        exact List.forall_mem_singleton.2 ⟨s₁, s₂, hfirst⟩

theorem run_parameters {ps : List Parameter} (h : (parameters r).run s = .ok (ps, s')) :
    ∀ p ∈ ps, ∃ s₁ s₂, (parameter r).run s₁ = .ok (p, s₂) := by
  unfold parameters bracketed at h
  obtain ⟨⟨⟩, s₁, -, h⟩ := run_bind_eq_ok.1 h
  rw [run_get_bind] at h
  obtain ⟨items, s₂, hitems, h⟩ := run_bind_eq_ok.1 h
  obtain ⟨⟨⟩, s₃, -, h⟩ := run_bind_eq_ok.1 h
  obtain ⟨rfl, -⟩ := run_pure_eq_ok.1 h
  exact run_itemsFrom hitems

/-- Every parameter of a function or method is declared in one of the forms. -/
theorem run_signature_parameters {decl : FunctionDecl} (h : (signature r).run s = .ok (decl, s')) :
    ∀ p ∈ decl.parameters, ∃ form var s₁ s₂, Declares r form var p s₁ s₂ := by
  unfold signature at h
  obtain ⟨⟨⟩, s₁, -, h⟩ := run_bind_eq_ok.1 h
  obtain ⟨mark, s₂, -, h⟩ := run_bind_eq_ok.1 h
  obtain ⟨name, s₃, -, h⟩ := run_bind_eq_ok.1 h
  obtain ⟨ps, s₄, hps, h⟩ := run_bind_eq_ok.1 h
  obtain ⟨⟨⟩, s₅, -, h⟩ := run_bind_eq_ok.1 h
  obtain ⟨rfl, -⟩ := run_pure_eq_ok.1 h
  intro p hp
  obtain ⟨t, t', hrun⟩ := run_parameters hps p hp
  obtain ⟨form, var, hdeclares⟩ := run_parameter hrun
  exact ⟨form, var, t, t', hdeclares⟩

end Parser
end ApiCatalog.Php
