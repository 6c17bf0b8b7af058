import ApiCatalog.Proofs.Classmap

/-!
# What a line must be to register an alias

A line is judged on its own, by its syntax tree. It counts if it mentions the marker and its first
item, comments apart, is a call of the static method with two or three literal arguments that name
an alias (`scanLine?_eq_some_iff`). What stands behind that call is not looked at, nor is what is
put into a literal, nor what follows the first segment of the class name. A line where there is
nothing of the kind counts just if it is exactly one registration (`scan_registrations`).
-/

namespace ApiCatalog.Classmap

open Php Text

variable {line cs : List Char} {a : AliasEntry} {e : Expr} {args : List Expr} {scope : String}
  {items : List FileItem} {file : SourceFile}

/-! ## The shape of a registration -/

/-- The item is a comment. -/
def isComment : FileItem → Bool
  | .comment _ => true
  | _ => false

/-- The items of a file that are no comments. -/
def content (file : SourceFile) : List FileItem := file.items.filter (!isComment ·)

/-- The literal arguments name the alias: the old name, the new one, and perhaps a version. -/
inductive Names : List Expr → AliasEntry → Prop
  | pair {x y : Expr} {oldName newName : String} (hx : literal? x = some oldName)
      (hy : literal? y = some newName) :
      Names [x, y] ⟨absoluteName oldName, absoluteName newName, defaultVersion⟩
  | versioned {x y z : Expr} {oldName newName version : String} (hx : literal? x = some oldName)
      (hy : literal? y = some newName) (hz : literal? z = some version) :
      Names [x, y, z] ⟨absoluteName oldName, absoluteName newName, version⟩

/-- The arguments name an alias whose names are not empty. -/
structure NamesAlias (args : List Expr) (a : AliasEntry) : Prop where
  names : Names args a
  oldName : a.oldName ≠ ""
  newName : a.newName ≠ ""

/-- In the body of a text in double quotes there stands a variable or an expression in braces. -/
def holdsExpression : List Char → Bool
  | '\\' :: _ :: rest => holdsExpression rest
  | '$' :: c :: rest => isNameStart c || c == '\x7b' || holdsExpression (c :: rest)
  | '\x7b' :: '$' :: _ => true
  | _ :: rest => holdsExpression rest
  | [] => false

/-- The literal is in double quotes and something is put into it when it is evaluated. -/
def isInterpolated : List Char → Bool
  | '"' :: body | 'b' :: '"' :: body | 'B' :: '"' :: body => holdsExpression body
  | _ => false

/-- Nothing is put into the literal when it is evaluated. -/
def isPlain : Expr → Bool
  | .text literal => !isInterpolated literal.toList
  | _ => true

/-- The first segment of the class name is the class that registers aliases. -/
def IsLoader (scope : String) : Prop :=
  ∃ more, (absoluteName scope).toList = "JLoader".toList ++ more ∧
    (more = [] ∨ more.head? = some '\\')

/-- The line starts, comments apart, with a registration of the alias, whatever follows. -/
def StartsWith (line : List Char) (a : AliasEntry) : Prop :=
  ∃ file scope args rest, Parser.parse ("<?php ".toList ++ line) = .ok file ∧
    content file = .statement (.expression (.staticCall scope "registerAlias" args)) :: rest ∧
    IsLoader scope ∧ NamesAlias args a

/-- The line is, comments apart, one registration of the alias and nothing else. -/
def Registers (line : List Char) (a : AliasEntry) : Prop :=
  ∃ file scope args, Parser.parse ("<?php ".toList ++ line) = .ok file ∧
    content file = [.statement (.expression (.staticCall scope "registerAlias" args))] ∧
    absoluteName scope = "JLoader" ∧ (∀ e ∈ args, isPlain e = true) ∧ NamesAlias args a

/-- Of a line that starts with a static call there is nothing behind that call, nothing is put into
its arguments, and the class is named without a namespace. -/
def Tidy (line : List Char) : Prop :=
  ∀ file scope method args rest, Parser.parse ("<?php ".toList ++ line) = .ok file →
    content file = .statement (.expression (.staticCall scope method args)) :: rest →
    rest = [] ∧ (∀ e ∈ args, isPlain e = true) ∧ '\\' ∉ (absoluteName scope).toList

/-! ## Which lines count -/

/-- The expression that a file starts with is that of its first item, comments apart. -/
theorem firstExpr?_eq_some_iff : firstExpr? items = some e ↔
    ∃ rest, items.filter (!isComment ·) = .statement (.expression e) :: rest := by
  induction items with
  | nil => simp [firstExpr?]
  | cons item items ih =>
    cases item with
    | comment text =>
      rw [List.filter_cons_of_neg (by simp [isComment])]
      exact ih
    | markup => simp [firstExpr?, isComment]
    | statement kind =>
      rw [List.filter_cons_of_pos (by simp [isComment])]
      cases kind <;> simp [firstExpr?]

/-- The values of arguments that are all literal stand in the order of the arguments. -/
theorem forall₂_of_mapM_literal? {values : List String} (h : args.mapM literal? = some values) :
    List.Forall₂ (fun e value => literal? e = some value) args values := by
  induction args generalizing values with
  | nil =>
    obtain rfl := Option.some.inj h
    exact .nil
  | cons e args ih =>
    rw [List.mapM_cons] at h
    obtain ⟨value, hvalue, hrest⟩ := Option.bind_eq_some_iff.1 h
    obtain ⟨more, hmore, hvalues⟩ := Option.bind_eq_some_iff.1 hrest
    obtain rfl := Option.some.inj hvalues
    exact .cons hvalue (ih hmore)

/-- The values of the arguments name the alias just if the arguments do. -/
theorem ofValues?_mapM_iff : (args.mapM literal?).bind ofValues? = some a ↔ Names args a := by
  constructor
  · intro h
    obtain ⟨values, hvalues, hnamed⟩ := Option.bind_eq_some_iff.1 h
    have hargs := forall₂_of_mapM_literal? hvalues
    unfold ofValues? at hnamed
    split at hnamed
    · obtain rfl := Option.some.inj hnamed
      obtain _ | ⟨hx, _ | ⟨hy, ⟨⟩⟩⟩ := hargs
      exact .pair hx hy
    · obtain rfl := Option.some.inj hnamed
      obtain _ | ⟨hx, _ | ⟨hy, _ | ⟨hz, ⟨⟩⟩⟩⟩ := hargs
      exact .versioned hx hy hz
    · cases hnamed
  · rintro (⟨hx, hy⟩ | ⟨hx, hy, hz⟩)
    · simp [hx, hy, ofValues?]
    · simp [hx, hy, hz, ofValues?]

/-- The first piece of a text is what stands in front of the first separator. -/
theorem isLoader_iff : IsLoader scope ↔
    (splitOn '\\' (dropLeading '\\' scope.toList)).headD [] = "JLoader".toList := by
  have hloader : '\\' ∉ "JLoader".toList := by decide
  unfold IsLoader absoluteName
  -- `isLoader` looks at the text up to the first separator, the specification at the whole name.
  rw [String.toList_ofList]
  constructor
  · rintro ⟨more, hscope, rfl | hmore⟩
    · rw [hscope, List.append_nil, splitOn_of_not_mem hloader, List.headD_cons]
    · obtain ⟨rest, rfl⟩ := List.head?_eq_some_iff.1 hmore
      rw [hscope, splitOn_append_cons, splitOn_of_not_mem hloader]
      rfl
  -- A first piece `JLoader` is all of the name or is followed by a separator, by what comes after
  -- it.
  · intro hfirst
    cases hpieces : splitOn '\\' (dropLeading '\\' scope.toList) with
    | nil => exact absurd hpieces (splitOn_ne_nil _)
    | cons first pieces =>
      rw [hpieces, List.headD_cons] at hfirst
      have hscope : joinWith '\\' (splitOn '\\' (dropLeading '\\' scope.toList)) = _ :=
        joinWith_splitOn _
      rw [hpieces, hfirst] at hscope
      cases pieces with
      | nil => exact ⟨[], hscope.symm.trans (List.append_nil _).symm, .inl rfl⟩
      | cons next pieces => exact ⟨_, hscope.symm, .inr rfl⟩

theorem isRegistration_iff {method : String} :
    isRegistration scope method = true ↔ IsLoader scope ∧ method = "registerAlias" := by
  rw [isRegistration, Bool.and_eq_true, beq_iff_eq, beq_iff_eq, isLoader_iff]

/-- An expression registers an alias just if it is a call that names it. -/
theorem ofExpr?_eq_some_iff : ofExpr? e = some a ↔
    ∃ scope args, e = .staticCall scope "registerAlias" args ∧ IsLoader scope ∧ Names args a := by
  constructor
  · intro h
    unfold ofExpr? at h
    split at h
    · next scope method args =>
      split at h
      · next hcall =>
        obtain ⟨hscope, rfl⟩ := isRegistration_iff.1 hcall
        exact ⟨scope, args, rfl, hscope, ofValues?_mapM_iff.1 h⟩
      · cases h
    · cases h
  · rintro ⟨scope, args, rfl, hscope, hnames⟩
    rw [ofExpr?, if_pos (isRegistration_iff.2 ⟨hscope, rfl⟩)]
    exact ofValues?_mapM_iff.2 hnames

/-- A line is read as the alias that it starts to register. -/
theorem ofLine?_eq_some_iff : ofLine? line = some a ↔ StartsWith line a := by
  unfold ofLine? StartsWith
  cases hparse : Parser.parse ("<?php ".toList ++ line) with
  | error e => simp
  | ok file =>
    dsimp only
    rw [Option.filter_eq_some_iff, Bool.and_eq_true, bne_iff_ne, bne_iff_ne,
      Option.bind_eq_some_iff]
    constructor
    · rintro ⟨⟨e, hfirst, hexpr⟩, hold, hnew⟩
      obtain ⟨scope, args, rfl, hscope, hnames⟩ := ofExpr?_eq_some_iff.1 hexpr
      obtain ⟨rest, hcontent⟩ := firstExpr?_eq_some_iff.1 hfirst
      exact ⟨file, scope, args, rest, rfl, hcontent, hscope, hnames, hold, hnew⟩
    · rintro ⟨file', scope, args, rest, hfile, hcontent, hscope, hnames, hold, hnew⟩
      obtain rfl := Except.ok.inj hfile
      have hfirst := firstExpr?_eq_some_iff.2 ⟨rest, hcontent⟩
      have hexpr := ofExpr?_eq_some_iff.2 ⟨scope, args, rfl, hscope, hnames⟩
      exact ⟨⟨_, hfirst, hexpr⟩, hold, hnew⟩

/-- A line counts just if it mentions the marker and starts with a registration. -/
theorem scanLine?_eq_some_iff : scanLine? line = some a ↔
    mentionsMarker line = true ∧ StartsWith line a := by
  rw [← ofLine?_eq_some_iff, scanLine?]
  split
  · next hmarker => simp [hmarker]
  · next hmarker => simp [hmarker]

/-! ## Exactly one registration -/

theorem isLoader_of_eq (h : absoluteName scope = "JLoader") : IsLoader scope :=
  ⟨[], by rw [h, List.append_nil], .inl rfl⟩

/-- A class name of one segment is that of the class itself. -/
theorem eq_of_isLoader (h : IsLoader scope) (hsegment : '\\' ∉ (absoluteName scope).toList) :
    absoluteName scope = "JLoader" := by
  obtain ⟨more, hscope, rfl | hmore⟩ := h
  · rw [← String.toList_inj, hscope, List.append_nil]
  · obtain ⟨rest, rfl⟩ := List.head?_eq_some_iff.1 hmore
    rw [hscope] at hsegment
    simp at hsegment

theorem Registers.startsWith (h : Registers line a) : StartsWith line a := by
  obtain ⟨file, scope, args, hparse, hcontent, hscope, -, hnames⟩ := h
  exact ⟨file, scope, args, [], hparse, hcontent, isLoader_of_eq hscope, hnames⟩

theorem Registers.tidy (h : Registers line a) : Tidy line := by
  obtain ⟨file, scope, args, hparse, hcontent, hscope, hplain, -⟩ := h
  intro file' scope' method args' rest hparse' hcontent'
  obtain rfl := Except.ok.inj (hparse.symm.trans hparse')
  rw [hcontent] at hcontent'
  obtain ⟨hcall, rfl⟩ := List.cons.inj hcontent'
  obtain ⟨rfl, -, rfl⟩ : scope = scope' ∧ "registerAlias" = method ∧ args = args' := by
    injection hcall with hkind
    injection hkind with hexpr
    injection hexpr with h₁ h₂ h₃
    exact ⟨h₁, h₂, h₃⟩
  refine ⟨rfl, hplain, ?_⟩
  rw [hscope]
  decide

/-- A line that starts with a registration is exactly that if it is tidy. -/
theorem StartsWith.registers (h : StartsWith line a) (htidy : Tidy line) : Registers line a := by
  obtain ⟨file, scope, args, rest, hparse, hcontent, hscope, hnames⟩ := h
  obtain ⟨rfl, hplain, hsegment⟩ := htidy file scope _ args rest hparse hcontent
  exact ⟨file, scope, args, hparse, hcontent, eq_of_isLoader hscope hsegment, hplain, hnames⟩

/-- A file is scanned line by line: each line adds one alias or none, whatever the others are, and
what a line adds is the alias of the registration that it starts with, if it mentions the marker.
It is exactly that registration if it is tidy. -/
theorem scan_registrations (source : List Char) :
    scan source = (lines source).filterMap scanLine? ∧
      ∀ line a,
        (scanLine? line = some a ↔ mentionsMarker line = true ∧ StartsWith line a) ∧
        (scanLine? line = some a ∧ Tidy line ↔ mentionsMarker line = true ∧ Registers line a) := by
  refine ⟨scan_eq source, fun line a => ⟨scanLine?_eq_some_iff, ?_⟩⟩
  rw [scanLine?_eq_some_iff]
  constructor
  · rintro ⟨⟨hmarker, hstarts⟩, htidy⟩
    exact ⟨hmarker, hstarts.registers htidy⟩
  · rintro ⟨hmarker, hregisters⟩
    exact ⟨⟨hmarker, hregisters.startsWith⟩, hregisters.tidy⟩

/-- Of an item that is a static call, whether each of its arguments is plain. -/
def plainArguments : FileItem → List Bool
  | .statement (.expression (.staticCall _ _ args)) => args.map isPlain
  | _ => []

/-- A line with a second statement behind a registration counts, and so does one with a variable in
the name that it registers. -/
theorem scan_no_registration :
    (scan "JLoader::registerAlias('A', 'B'); exit;".toList = [⟨"A", "B", "4.0"⟩] ∧
      ∀ a, ¬ Registers "JLoader::registerAlias('A', 'B'); exit;".toList a) ∧
    scan "JLoader::registerAlias(\"A$b\", 'B');".toList = [⟨"A$b", "B", "4.0"⟩] ∧
      ∀ a, ¬ Registers "JLoader::registerAlias(\"A$b\", 'B');".toList a := by
  -- Neither source could be a registration by another reading: parsing gives one file only, and its
  -- content has the wrong length or an argument that is no plain literal.
  refine ⟨⟨by decide +kernel, fun a h => ?_⟩, by decide +kernel, fun a h => ?_⟩
  · obtain ⟨file, scope, args, hparse, hcontent, -⟩ := h
    have hcount : ((Parser.parse ("<?php ".toList ++
        "JLoader::registerAlias('A', 'B'); exit;".toList)).toOption.map
        fun file => (content file).length) = some 2 := by decide +kernel
    rw [hparse] at hcount
    have hlength : (content file).length = 2 := Option.some.inj hcount
    rw [hcontent] at hlength
    cases hlength
  · obtain ⟨file, scope, args, hparse, hcontent, -, hplain, -⟩ := h
    have harguments : ((Parser.parse ("<?php ".toList ++
        "JLoader::registerAlias(\"A$b\", 'B');".toList)).toOption.map
        fun file => (content file).map plainArguments) = some [[false, true]] := by decide +kernel
    rw [hparse] at harguments
    have hitems : (content file).map plainArguments = [[false, true]] :=
      Option.some.inj harguments
    rw [hcontent] at hitems
    have hargs : args.map isPlain = [false, true] := (List.cons.inj hitems).1
    obtain ⟨e, he, hfalse⟩ := List.mem_map.1 (hargs ▸ List.mem_cons_self : false ∈ args.map isPlain)
    rw [hplain e he] at hfalse
    cases hfalse

end ApiCatalog.Classmap
