import ApiCatalog.Php.Reflect
import ApiCatalog.Proofs.Text.Split

/-!
# References to classes

A reference is absolute, relative to the current namespace, or plain. What it stands for is said by
`Scope.Denotes`, of names as their segments. Resolving the text of a reference gives that name
(`resolve_iff_denotes`), unless the keyword of a relative reference is not in lower case: then the
keyword is taken for the first segment of a plain reference.
-/

namespace ApiCatalog.Php

open Text

/-! ## References -/

/-- A reference to a class as it is written, by its segments. -/
inductive ClassReference where
  /-- A separator stands in front. -/
  | absolute (segments : List (List Char))
  /-- The keyword `namespace`, in any letter case, stands in front. -/
  | relative (keyword : List Char) (segments : List (List Char))
  | plain (first : List Char) (more : List (List Char))

/-- A part of a name: any text without a separator in it. -/
def IsSegment (cs : List Char) : Prop := cs ≠ [] ∧ '\\' ∉ cs

instance (cs : List Char) : Decidable (IsSegment cs) := inferInstanceAs (Decidable (_ ∧ _))

/-- The keyword `namespace`, in any letter case. -/
def IsNamespaceKeyword (cs : List Char) : Prop := cs.map Char.toLower = "namespace".toList

instance (cs : List Char) : Decidable (IsNamespaceKeyword cs) :=
  inferInstanceAs (Decidable (_ = _))

theorem IsNamespaceKeyword.isSegment {cs : List Char} (h : IsNamespaceKeyword cs) :
    IsSegment cs := by
  refine ⟨?_, fun hmem => ?_⟩
  · rintro rfl
    cases h
  · have hlower : Char.toLower '\\' ∈ cs.map Char.toLower := List.mem_map_of_mem hmem
    rw [h] at hlower
    exact absurd hlower (by decide)

namespace ClassReference

/-- The segments behind what stands in front. -/
def segments : ClassReference → List (List Char)
  | .absolute segments => segments
  | .relative _ segments => segments
  | .plain first more => first :: more

/-- The text of the reference. -/
def text : ClassReference → List Char
  | .absolute segments => '\\' :: joinWith '\\' segments
  | .relative keyword segments => joinWith '\\' (keyword :: segments)
  | .plain first more => joinWith '\\' (first :: more)

/-- The keyword in front, if there is one. -/
def keyword? : ClassReference → Option (List Char)
  | .relative keyword _ => some keyword
  | _ => none

/-- The first segment, if nothing stands in front of it. -/
def first? : ClassReference → Option (List Char)
  | .plain first _ => some first
  | _ => none

/-- The reference is one that can be written, and a plain one does not look relative. -/
structure WellFormed (r : ClassReference) : Prop where
  ne_nil : r.segments ≠ []
  segments : ∀ cs ∈ r.segments, IsSegment cs
  keyword : ∀ cs ∈ r.keyword?, IsNamespaceKeyword cs
  first : ∀ cs ∈ r.first?, ¬ IsNamespaceKeyword cs

instance (r : ClassReference) : Decidable r.WellFormed :=
  decidable_of_iff (r.segments ≠ [] ∧ (∀ cs ∈ r.segments, IsSegment cs) ∧
      (∀ cs ∈ r.keyword?, IsNamespaceKeyword cs) ∧ ∀ cs ∈ r.first?, ¬ IsNamespaceKeyword cs)
    ⟨fun ⟨hne, hsegments, hkeyword, hfirst⟩ => ⟨hne, hsegments, hkeyword, hfirst⟩,
      fun h => ⟨h.ne_nil, h.segments, h.keyword, h.first⟩⟩

end ClassReference

/-! ## Names -/

/-- The name with these segments. -/
def nameOf (segments : List (List Char)) : String := .ofList (joinWith '\\' segments)

namespace Scope

/-- The segments of the namespace in force; none outside all namespaces. -/
def nsSegments (s : Scope) : List (List Char) := s.ns.elim [] fun ns => splitOn '\\' ns.toList

/-- The word is the alias, in any letter case. -/
def IsAlias (short : String) (word : List Char) : Prop :=
  short.toList.map Char.toLower = word.map Char.toLower

instance (short : String) (word : List Char) : Decidable (IsAlias short word) :=
  inferInstanceAs (Decidable (_ = _))

/-- The name that a reference stands for in the scope. -/
inductive Denotes (s : Scope) : ClassReference → String → Prop
  | absolute (segments : List (List Char)) : s.Denotes (.absolute segments) (nameOf segments)
  | relative (keyword : List Char) (segments : List (List Char)) :
      s.Denotes (.relative keyword segments) (nameOf (s.nsSegments ++ segments))
  | imported {short target : String} {first : List Char} (more : List (List Char))
      (h : (short, target) ∈ s.aliases.entries) (halias : IsAlias short first) :
      s.Denotes (.plain first more) (nameOf (splitOn '\\' target.toList ++ more))
  | plain {first : List Char} (more : List (List Char))
      (h : ∀ e ∈ s.aliases.entries, ¬ IsAlias e.1 first) :
      s.Denotes (.plain first more) (nameOf (s.nsSegments ++ first :: more))

/-- No two aliases differ in letter case only. -/
def DistinctAliases (s : Scope) : Prop :=
  ∀ e ∈ s.aliases.entries, ∀ e' ∈ s.aliases.entries, IsAlias e.1 e'.1.toList → e = e'

instance (s : Scope) : Decidable s.DistinctAliases := inferInstanceAs (Decidable (∀ _ ∈ _, _))

end Scope

variable {s : Scope} {written name : String} {word first rest : List Char}
  {segments more : List (List Char)}

/-! ## Names as segments -/

/-- Names one behind the other, with a separator between them. -/
theorem nameOf_append (front : String) (hne : segments ≠ []) :
    nameOf (splitOn '\\' front.toList ++ segments) = front ++ "\\" ++ nameOf segments := by
  rw [nameOf, joinWith_append (splitOn_ne_nil _) hne, joinWith_splitOn, ← String.toList_inj]
  simp [nameOf]

theorem nameOf_splitOn (name : String) : nameOf (splitOn '\\' name.toList) = name := by
  rw [nameOf, joinWith_splitOn, String.ofList_toList]

theorem splitOn_segments (hne : segments ≠ []) (h : ∀ cs ∈ segments, IsSegment cs) :
    splitOn '\\' (joinWith '\\' segments) = segments :=
  splitOn_joinWith hne fun cs hcs => (h cs hcs).2

namespace Scope

theorem qualify_nameOf (s : Scope) (hne : segments ≠ []) :
    s.qualify (nameOf segments) = nameOf (s.nsSegments ++ segments) := by
  unfold qualify nsSegments
  cases s.ns with
  | none => rfl
  | some ns => exact (nameOf_append ns hne).symm

/-! ## Imports -/

theorem map_toLower_eq_iff {short : String} :
    (short.map Char.toLower == (String.ofList word).map Char.toLower) = true ↔
      IsAlias short word := by
  rw [beq_iff_eq, ← String.toList_inj]
  simp [IsAlias]

theorem isAlias_of_find? {e : String × String} (h : s.aliases.entries.find?
    (fun e => e.1.map Char.toLower == (String.ofList word).map Char.toLower) = some e) :
    IsAlias e.1 word := by
  have hfound := List.find?_some h
  exact map_toLower_eq_iff.1 hfound

theorem imported?_eq_none_iff :
    s.imported? (.ofList word) = none ↔ ∀ e ∈ s.aliases.entries, ¬ IsAlias e.1 word := by
  simp only [imported?, Option.map_eq_none_iff, List.find?_eq_none, map_toLower_eq_iff]

theorem exists_of_imported? {target : String} (h : s.imported? (.ofList word) = some target) :
    ∃ short, (short, target) ∈ s.aliases.entries ∧ IsAlias short word := by
  obtain ⟨e, he, rfl⟩ := Option.map_eq_some_iff.1 h
  exact ⟨e.1, List.mem_of_find?_eq_some he, isAlias_of_find? he⟩

/-- The first import of an alias is the only one, if no two aliases differ in letter case only. -/
theorem imported?_eq_some_iff (hdistinct : s.DistinctAliases) {target : String} :
    s.imported? (.ofList word) = some target ↔
      ∃ short, (short, target) ∈ s.aliases.entries ∧ IsAlias short word := by
  refine ⟨exists_of_imported?, fun ⟨short, hentry, hshort⟩ => ?_⟩
  cases hfound : s.imported? (.ofList word) with
  | none => exact absurd hshort (imported?_eq_none_iff.1 hfound _ hentry)
  | some target' =>
    obtain ⟨short', hentry', hshort'⟩ := exists_of_imported? hfound
    have hsame : IsAlias short' short.toList := hshort'.trans hshort.symm
    have heq := hdistinct _ hentry' _ hentry hsame
    rw [(Prod.mk.inj heq).2]

/-! ## The forms of a reference -/

theorem resolve_absolute (h : trim written.toList = '\\' :: rest) :
    s.resolve written = .ofList rest := by
  rw [resolve, h]
  rfl

theorem resolve_relative (h : trim written.toList = "namespace".toList ++ '\\' :: rest) :
    s.resolve written = s.qualify (.ofList rest) := by
  have hstart : dropStart? "namespace\\".toList ("namespace".toList ++ '\\' :: rest) = some rest :=
    dropStart?_eq_some_iff.2 rfl
  rw [resolve, h, hstart]
  rfl

/-- The first segment of a plain reference is looked up among the imports. -/
theorem resolve_plain (hsegments : ∀ cs ∈ first :: more, IsSegment cs)
    (hkeyword : first ≠ "namespace".toList)
    (h : trim written.toList = joinWith '\\' (first :: more)) :
    s.resolve written = nameOf ((s.imported? (.ofList first)).elim (s.nsSegments ++ first :: more)
      fun target => splitOn '\\' target.toList ++ more) := by
  have hfirst : IsSegment first := hsegments first List.mem_cons_self
  have hsplit := splitOn_segments (List.cons_ne_nil first more) hsegments
  have hqualify := s.qualify_nameOf (List.cons_ne_nil first more)
  -- The text does not start like the other two forms.
  have habsolute : ∀ rest, joinWith '\\' (first :: more) ≠ '\\' :: rest := by
    intro rest hrest
    rw [hrest, splitOn, if_pos rfl] at hsplit
    exact hfirst.1 (List.cons.inj hsplit).1.symm
  have hrelative : dropStart? "namespace\\".toList (joinWith '\\' (first :: more)) = none := by
    refine Option.eq_none_iff_forall_ne_some.2 fun rest hrest => hkeyword ?_
    have hwhole := dropStart?_eq_some_iff.1 hrest
    have hnamespace : "namespace\\".toList ++ rest = "namespace".toList ++ '\\' :: rest := rfl
    rw [hwhole, hnamespace, splitOn_append_cons, splitOn_of_not_mem (by decide)] at hsplit
    exact (List.cons.inj hsplit).1.symm
  unfold resolve
  rw [h]
  simp only [hrelative]
  cases more with
  | nil =>
    have hjoin : joinWith '\\' [first] = first := rfl
    simp only [hjoin, splitFirst?_of_not_mem hfirst.2]
    cases s.imported? (.ofList first) with
    | none => exact hqualify
    | some target => simp [nameOf_splitOn]
  | cons next more =>
    have hcut : splitFirst? '\\' (joinWith '\\' (first :: next :: more)) =
        some (first, joinWith '\\' (next :: more)) := splitFirst?_append hfirst.2 _
    simp only [hcut]
    cases s.imported? (.ofList first) with
    | none => exact hqualify
    | some target => exact (nameOf_append target (List.cons_ne_nil next more)).symm

/-- A plain reference denotes one name, and resolving it gives that name. -/
theorem resolve_plain_iff_denotes (hsegments : ∀ cs ∈ first :: more, IsSegment cs)
    (hkeyword : first ≠ "namespace".toList)
    (h : trim written.toList = joinWith '\\' (first :: more)) (hdistinct : s.DistinctAliases) :
    s.resolve written = name ↔ s.Denotes (.plain first more) name := by
  rw [resolve_plain hsegments hkeyword h]
  -- Whether the first segment is an alias decides which of the two rules for a plain name applies.
  cases himported : s.imported? (.ofList first) with
  | none =>
    have hnone := imported?_eq_none_iff.1 himported
    constructor
    · rintro rfl
      exact .plain more hnone
    · intro hdenotes
      cases hdenotes with
      | imported _ hentry hshort => exact absurd hshort (hnone _ hentry)
      | plain => rfl
  | some target =>
    obtain ⟨short, hentry, hshort⟩ := (imported?_eq_some_iff hdistinct).1 himported
    constructor
    · rintro rfl
      exact .imported more hentry hshort
    · intro hdenotes
      cases hdenotes with
      -- Two imports of one alias would be two names; distinct aliases leave one.
      | imported _ hentry' hshort' =>
        have hsome := (imported?_eq_some_iff hdistinct).2 ⟨_, hentry', hshort'⟩
        rw [← Option.some.inj (himported.symm.trans hsome)]
        rfl
      | plain _ hnone => exact absurd hshort (hnone _ hentry)

/-- Resolving a reference gives the name it stands for, if a keyword in front of it is in lower
case. A keyword in another letter case is taken for the first segment of a plain reference. -/
theorem resolve_iff_denotes {r : ClassReference} (hr : r.WellFormed) (hdistinct : s.DistinctAliases)
    (h : trim written.toList = r.text) (name : String) :
    ((∀ keyword ∈ r.keyword?, keyword = "namespace".toList) →
        (s.resolve written = name ↔ s.Denotes r name)) ∧
      ∀ keyword ∈ r.keyword?, keyword ≠ "namespace".toList →
        (s.resolve written = name ↔ s.Denotes (.plain keyword r.segments) name) := by
  obtain ⟨hne, hsegments, hkeyword, hfirst⟩ := hr
  constructor
  -- With the keyword in lower case each form has its own rule.
  · intro hlower
    cases r with
    | absolute segments =>
      rw [resolve_absolute h]
      constructor
      · rintro rfl
        exact .absolute segments
      · rintro ⟨⟩
        rfl
    | relative keyword segments =>
      obtain rfl := hlower keyword rfl
      obtain ⟨next, more, rfl⟩ := List.exists_cons_of_ne_nil hne
      have hresolve : s.resolve written = nameOf (s.nsSegments ++ next :: more) :=
        (resolve_relative h).trans (s.qualify_nameOf hne)
      rw [hresolve]
      constructor
      · rintro rfl
        exact .relative _ (next :: more)
      · rintro ⟨⟩
        rfl
    | plain first more =>
      have hplain : first ≠ "namespace".toList := by
        rintro rfl
        exact hfirst _ rfl (by decide)
      exact resolve_plain_iff_denotes hsegments hplain h hdistinct
  -- With another spelling the keyword is taken for the first segment of a plain name.
  · intro keyword hsome hupper
    cases r with
    | absolute => cases hsome
    | plain => cases hsome
    | relative _ segments =>
      obtain rfl := Option.some.inj hsome
      have hword := (hkeyword _ rfl).isSegment
      exact resolve_plain_iff_denotes (List.forall_mem_cons.2 ⟨hword, hsegments⟩) hupper h hdistinct

/-- An imported name in another letter case, with a segment behind it. -/
theorem resolve_iff_denotes_imported :
    let s : Scope := { ns := some "Blog", aliases := Dictionary.ofList [("Db", "Lib\\Database")] }
    let r : ClassReference := .plain "DB".toList ["Table".toList]
    r.WellFormed ∧ s.DistinctAliases ∧ trim "DB\\Table".toList = r.text ∧
      s.Denotes r "Lib\\Database\\Table" := by
  intro s r
  have hr : r.WellFormed := by decide +kernel
  have hdistinct : s.DistinctAliases := by decide +kernel
  have htext : trim "DB\\Table".toList = r.text := by decide +kernel
  have hresolve : s.resolve "DB\\Table" = "Lib\\Database\\Table" := by decide +kernel
  exact ⟨hr, hdistinct, htext, ((resolve_iff_denotes hr hdistinct htext _).1 nofun).1 hresolve⟩

/-- The keyword is not told from a name where it is not in lower case. -/
theorem resolve_upper_keyword :
    let s : Scope := { ns := some "A" }
    let r : ClassReference := .relative "Namespace".toList ["Y".toList]
    let source := "<?php\nnamespace A;\nclass X extends Namespace\\Y {}\n"
    r.WellFormed ∧ s.DistinctAliases ∧ trim "Namespace\\Y".toList = r.text ∧
      s.Denotes r "A\\Y" ∧ s.resolve "Namespace\\Y" = "A\\Namespace\\Y" ∧
      (reflect source.toList).toOption.map (fun f => f.declarations.classes.map (·.parent)) =
        some [some "A\\Namespace\\Y"] := by
  intro s r source
  refine ⟨by decide +kernel, by decide +kernel, by decide +kernel, ?_, by decide +kernel,
    by decide +kernel⟩
  exact .relative "Namespace".toList ["Y".toList]

end Scope
end ApiCatalog.Php
