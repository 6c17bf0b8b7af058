import ApiCatalog.Proofs.Docblock.ParamTag
import ApiCatalog.Proofs.Php.Parser.Parameter
import ApiCatalog.SourceFile

/-!
# Documented parameters

The name of a parameter is read in two places: in its declaration, where marks may stand in front of
the variable, and in the `param` tag of the comment, where the variable may be spelled with marks
too. Wherever the two names agree, the parameter gets the types and the description of the first tag
for it (`signature_documented`). They agree in all forms of a declaration but one: the name of a
property taken by reference keeps its mark.
-/

open ApiCatalog.Php.Parser

namespace ApiCatalog.Php

open Text

variable {r : Rules} {s s' : ParserState} {p : Parameter} {form : ParameterForm} {var : Token}

/-- Without its sigil, the variable is the name of the parameter. -/
theorem name_argument (h : Declares r form var p s s') (hform : form ≠ .promotedByReference)
    {x : String} (hvar : var.text = "$" ++ x) (hx : x.toList.head? ≠ some '$') (scope : Scope) :
    (scope.argument p).entry.name = x := by
  have hname : p.name = "$" ++ x := by rw [h.name, ParameterForm.nameOf, if_neg hform, hvar]
  have hchars : ("$" ++ x).toList = '$' :: x.toList := String.toList_append
  have hdrop : dropLeading '$' ('$' :: x.toList) = dropLeading '$' x.toList := by
    simp [dropLeading]
  have hentry : (scope.argument p).entry.name = withoutSigil p.name := rfl
  rw [hentry, withoutSigil, hname, hchars, hdrop, dropLeading_eq_self hx, String.ofList_toList]

/-- In front of the mark there is no sigil to drop. -/
theorem name_argument_of_promotedByReference
    (h : Declares r .promotedByReference var p s s') (scope : Scope) :
    (scope.argument p).entry.name = "&" ++ var.leadText ++ var.text := by
  have hname : p.name = "&" ++ var.leadText ++ var.text := h.name
  have hchars : ("&" ++ var.leadText ++ var.text).toList.head? ≠ some '$' := by
    simp [String.toList_append]
  have hentry : (scope.argument p).entry.name = withoutSigil p.name := rfl
  rw [hentry, withoutSigil, hname, dropLeading_eq_self hchars, String.ofList_toList]

/-- Every parameter of a function or method is declared in one of the forms. In all of them but one
it has the name of its variable, and gets the types and the description of the first tag that
documents the variable, however that is spelled there; its own type follows unless it is one of
these. A property taken by reference has the mark in its name. -/
theorem signature_documented {decl : FunctionDecl} (h : (signature r).run s = .ok (decl, s'))
    (hp : p ∈ decl.parameters) :
    ∃ form var, (∃ s₁ s₂, Declares r form var p s₁ s₂) ∧
      (form ≠ .promotedByReference → ∀ (x : String) (scope : Scope), var.text = "$" ++ x →
        x.toList.head? ≠ some '$' → (scope.argument p).entry.name = x ∧
        ∀ raw tag, Documents raw tag → tag.var = x →
          argumentInfo (scope.argument p).entry (Docblock.interpret raw) =
            (tag.types ++ (p.type.map scope.resolveType).toList.filter
              fun type => type ≠ "" ∧ type ∉ tag.types, tag.description)) ∧
      (form = .promotedByReference → ∀ scope : Scope,
        (scope.argument p).entry.name = "&" ++ var.leadText ++ var.text) := by
  -- Every parameter comes from one of the six forms; all but one give the name without sigils.
  obtain ⟨form, var, s₁, s₂, hdeclares⟩ := run_signature_parameters h p hp
  refine ⟨form, var, ⟨s₁, s₂, hdeclares⟩, fun hform x scope hvar hx => ?_, ?_⟩
  · have hname := name_argument hdeclares hform hvar hx scope
    refine ⟨hname, fun raw tag hdocuments htag => ?_⟩
    rw [argumentInfo_of_documents hdocuments (hname.trans htag.symm)]
    have htype : (scope.argument p).entry.type = (p.type.map scope.resolveType).getD "" := rfl
    rw [htype]
    cases p.type with
    | none => simp
    | some type => rfl
  · rintro rfl scope
    exact name_argument_of_promotedByReference hdeclares scope

/-- A function with a parameter of variable length, taken by reference. -/
def loadSource : String := "<?php function load(?Registry &...$keys) \x7b\x7d"

/-- Its comment. -/
def loadComment : String :=
  "/**\n * Loads rows.\n *\n * @param int $other Not of this function.\n" ++
  " * @param int|null ...$keys The keys\n *   to load.\n * @return void\n */"

/-- The tag of the comment that documents the parameter. -/
def keysTag : ParamTag where
  typeWord := "int|null".toList
  sigil := "...$"
  var := "keys"
  gap := [' ']
  gap' := [' ']
  rest := " The keys\nto load.".toList
  isWord_typeWord := by decide
  typeWord_plain := by decide
  sigil_mem := by decide
  var_fits := ⟨(show IsWord "keys".toList by decide).no_blank, by decide⟩
  gap_ne := by decide
  gap_blank := List.all_eq_true.1 (by decide)
  gap'_ne := by decide
  gap'_blank := List.all_eq_true.1 (by decide)
  rest_blank := by
    rintro c ⟨⟩
    decide

theorem documents_keysTag : Documents loadComment keysTag where
  first := ⟨[⟨"@param int $other Not of this function.".toList, []⟩],
    ⟨"@param int|null ...$keys The keys".toList, ["  to load.".toList]⟩,
    [⟨"@return void".toList, []⟩], by decide +kernel, by decide +kernel, by decide +kernel⟩

/-- The parameter of the function is documented: its own type, resolved, follows the types of the
tag. -/
theorem signature_documented_load :
    let decl : FunctionDecl :=
      { name := "load"
        parameters := [{ name := "$keys", type := some "?Registry", default := none }] }
    let keys : ArgumentEntry := { name := "keys", type := "?Library\\Registry" }
    (∃ s', (signature (rules 1)).run { rest := tokenize loadSource.toList } = .ok (decl, s')) ∧
      decl.parameters.map (fun p => (Scope.argument { ns := some "Library" } p).entry) = [keys] ∧
      argumentInfo keys (Docblock.interpret loadComment) =
        (["int", "null", "?Library\\Registry"], "The keys\nto load.") := by
  intro decl keys
  obtain ⟨s', hrun⟩ : ∃ s', (signature (rules 1)).run { rest := tokenize loadSource.toList } =
      .ok (decl, s') := by
    have hread : ((signature (rules 1)).run { rest := tokenize loadSource.toList }).toOption.map
        Prod.fst = some decl := by decide +kernel
    cases hresult : (signature (rules 1)).run { rest := tokenize loadSource.toList } with
    | error e =>
      rw [hresult] at hread
      cases hread
    | ok result =>
      rw [hresult] at hread
      exact ⟨result.2, by rw [← Option.some.inj hread]⟩
  obtain ⟨form, var, ⟨s₁, s₂, hdeclares⟩, hnamed, -⟩ :=
    signature_documented hrun (List.mem_singleton.2 rfl)
  -- The name that was read starts with the sigil, so no mark is part of it.
  have hform : form ≠ .promotedByReference := by
    rintro rfl
    have hhead := congrArg (·.toList.head?) hdeclares.name
    simp [ParameterForm.nameOf, String.toList_append] at hhead
  have hvar : var.text = "$" ++ "keys" := by
    have hname := hdeclares.name
    rw [ParameterForm.nameOf, if_neg hform] at hname
    exact hname.symm
  obtain ⟨-, hdocumented⟩ := hnamed hform "keys" { ns := some "Library" } hvar (by decide)
  have hkeys : (Scope.argument { ns := some "Library" }
      { name := "$keys", type := some "?Registry", default := none }).entry = keys := by
    decide +kernel
  have hinfo := hdocumented loadComment keysTag documents_keysTag rfl
  rw [hkeys] at hinfo
  refine ⟨⟨s', hrun⟩, by rw [List.map_singleton, hkeys], ?_⟩
  rw [hinfo]
  decide +kernel

/-- The mark in the name of a property taken by reference keeps its tag from it. -/
theorem argumentInfo_promotedByReference :
    (parseSource (encode "table.php") ("<?php class Table \x7b /** @param int &$x The x. */ " ++
        "function __construct(public int &$x) \x7b\x7d \x7d").toList).toOption.map
      (fun file => file.classes.flatMap fun c => c.methods.flatMap fun m =>
        m.arguments.map fun a =>
          (m.docblock.tags.map Tag.varName, a.name, argumentInfo a m.docblock)) =
      some [([some "x"], "&$x", [], "")] := by
  decide +kernel

end ApiCatalog.Php
