import ApiCatalog.Php.Reflect
import ApiCatalog.Proofs.Dictionary
import ApiCatalog.Proofs.Php.Reference
import ApiCatalog.Proofs.Php.Reflect
import ApiCatalog.Proofs.Text.Blank

/-!
# Imports in force

Walking a file reads its statements in one order, whatever nests them (`leavesOf`). Where a
statement stands, the import declarations behind the last namespace statement are in force
(`usesInForce`), and of their clauses the last one of every alias is recorded with each function
and method declared there. A keyword says that a clause imports no class. Only the one in front of
a group is heeded, so the imports recorded are the class imports where all others are absent
(`exists_imports_in_force`).
-/

namespace ApiCatalog.Php

open Text

/-! ## Clauses -/

/-- The name that the clause imports, joined to the common namespace of its group. -/
def UseClause.importedName (base : Option String) (c : UseClause) : String :=
  base.elim (Scope.absolute c.target) fun b => Scope.absolute b ++ "\\" ++ Scope.absolute c.target

/-- What the clause calls the name it imports: as it says, or like the last segment. -/
def UseClause.shortName (c : UseClause) : String :=
  c.alias?.getD (.ofList (lastPiece '\\' c.target.toList))

/-- The entry that the clause makes. -/
def UseClause.entry (base : Option String) (c : UseClause) : String × String :=
  (c.shortName, c.importedName base)

namespace UseDecl

/-- The common namespace of a group. -/
def base? : UseDecl → Option String
  | .clauses _ => none
  | .grouped _ base _ => some base

/-- The clauses of the declaration. -/
def allClauses : UseDecl → List UseClause
  | .clauses cs => cs
  | .grouped _ _ cs => cs

/-- The keyword in front of the whole declaration. Without a group, it stands in front of the first
clause. -/
def keyword? : UseDecl → Option String
  | .clauses cs => cs.head?.bind (·.keyword)
  | .grouped keyword _ _ => keyword

/-- The class imports: the clauses that no keyword belongs to. -/
def classImports (d : UseDecl) : List (String × String) :=
  if d.keyword?.isSome then []
  else (d.allClauses.filter (·.keyword.isNone)).map (UseClause.entry d.base?)

/-- The imports that are recorded. -/
def recorded : UseDecl → List (String × String)
  | .grouped (some _) _ _ => []
  | d => d.allClauses.map (UseClause.entry d.base?)

/-- The only keyword stands in front of a group. -/
def Heeded : UseDecl → Prop
  | .grouped (some _) _ _ => True
  | d => ∀ c ∈ d.allClauses, c.keyword = none

instance : ∀ d : UseDecl, Decidable d.Heeded
  | .clauses cs => inferInstanceAs (Decidable (∀ c ∈ cs, c.keyword = none))
  | .grouped none _ cs => inferInstanceAs (Decidable (∀ c ∈ cs, c.keyword = none))
  | .grouped (some _) _ _ => .isTrue trivial

end UseDecl

/-! ## Statements in the order they are read -/

mutual

/-- The statement, or the ones that it nests. A namespace with braces is one in front of what stands
in them, and none behind it. -/
def Stmt.leaves : Stmt → List Stmt
  | .mk lead line kind =>
    match kind with
    | .namespaceBlock name body =>
      .mk lead line (.namespaceHeader (name.getD "")) :: leavesOf body ++
        [.mk [] line (.namespaceHeader "")]
    | .block body | .conditional body | .directive body => leavesOf body
    | kind => [.mk lead line kind]

/-- The statements in order, whatever nests them. -/
def leavesOf : List Stmt → List Stmt
  | [] => []
  | stmt :: rest => stmt.leaves ++ leavesOf rest

end

/-- The import declarations in force behind a statement, `uses` in front of it. -/
def usesBehind (uses : List UseDecl) (stmt : Stmt) : List UseDecl :=
  match stmt.kind with
  | .namespaceHeader _ => []
  | .imports decl => uses ++ [decl]
  | _ => uses

/-- The import declarations in force behind these statements. -/
def usesInForce (stmts : List Stmt) : List UseDecl := stmts.foldl usesBehind []

mutual

/-- A statement reads as its leaves do. -/
theorem reflectStmts_leaves (s : Scope) (stmt : Stmt) :
    reflectStmts s stmt.leaves = reflectStmt s stmt := by
  cases stmt with
  | mk lead line kind =>
    cases kind with
    | namespaceBlock name body =>
      have hns : (name.bind fun n => reflectKind.nonempty (Scope.absolute n)) =
          reflectKind.nonempty (Scope.absolute (name.getD "")) := by
        cases name with
        | none => decide +kernel
        | some n => rfl
      have hnone : reflectKind.nonempty (Scope.absolute "") = none := by decide +kernel
      simp only [Stmt.leaves, List.cons_append, reflectStmts, reflectStmts_append, reflectStmt,
        reflectKind, reflectStmts_leavesOf, hns, hnone, Declarations.empty_append,
        Declarations.append_empty]
    | block body | conditional body | directive body => exact reflectStmts_leavesOf s body
    | namespaceHeader | imports | classDecl | interfaceDecl | functionDecl | constants | expression
    | traitDecl | enumDecl | other =>
      simp [Stmt.leaves, reflectStmts]

/-- Statements read as their leaves do. -/
theorem reflectStmts_leavesOf (s : Scope) (stmts : List Stmt) :
    reflectStmts s (leavesOf stmts) = reflectStmts s stmts := by
  cases stmts with
  | nil => rfl
  | cons stmt rest =>
    rw [leavesOf, reflectStmts_append, reflectStmts_leaves s stmt, reflectStmts_leavesOf _ rest,
      reflectStmts]

end

/-- The statement nests no others. -/
def StmtKind.IsLeaf : StmtKind → Prop
  | .namespaceBlock .. | .block _ | .conditional _ | .directive _ => False
  | _ => True

mutual

theorem isLeaf_of_mem_leaves (stmt : Stmt) : ∀ leaf ∈ stmt.leaves, leaf.kind.IsLeaf := by
  cases stmt with
  | mk lead line kind =>
    cases kind with
    | namespaceBlock name body =>
      intro leaf hleaf
      rw [Stmt.leaves, List.cons_append, List.mem_cons, List.mem_append,
        List.mem_singleton] at hleaf
      rcases hleaf with rfl | hleaf | rfl
      · exact trivial
      · exact isLeaf_of_mem_leavesOf body leaf hleaf
      · exact trivial
    | block body | conditional body | directive body => exact isLeaf_of_mem_leavesOf body
    | namespaceHeader | imports | classDecl | interfaceDecl | functionDecl | constants | expression
    | traitDecl | enumDecl | other =>
      exact List.forall_mem_singleton.2 trivial

theorem isLeaf_of_mem_leavesOf (stmts : List Stmt) :
    ∀ leaf ∈ leavesOf stmts, leaf.kind.IsLeaf := by
  cases stmts with
  | nil => nofun
  | cons stmt rest =>
    intro leaf hleaf
    rcases List.mem_append.1 hleaf with hleaf | hleaf
    · exact isLeaf_of_mem_leaves stmt leaf hleaf
    · exact isLeaf_of_mem_leavesOf rest leaf hleaf

end

/-! ## Recording clauses -/

variable {s : Scope} {stmts before behind : List Stmt} {stmt : Stmt} {uses : List UseDecl}

/-- The last segment of a clause is that of the name it imports. -/
theorem lastPiece_importedName (base : Option String) (c : UseClause) :
    lastPiece '\\' (c.importedName base).toList = lastPiece '\\' c.target.toList := by
  have htarget : lastPiece '\\' (Scope.absolute c.target).toList =
      lastPiece '\\' c.target.toList := by
    rw [Scope.absolute, String.toList_ofList, lastPiece_dropLeading]
  cases base with
  | none => exact htarget
  | some b =>
    have hjoin : (c.importedName (some b)).toList =
        (Scope.absolute b).toList ++ '\\' :: (Scope.absolute c.target).toList := by
      simp [UseClause.importedName]
    rw [hjoin, lastPiece_append_cons, htarget]

/-- A clause puts its entry among the imports. -/
theorem addClause_eq (base : Option String) (s : Scope) (c : UseClause) :
    Scope.addClause (base.map Scope.absolute) s c =
      { s with aliases := s.aliases.insert (c.entry base).1 (c.entry base).2 } := by
  have htarget : (base.map Scope.absolute).elim (Scope.absolute c.target)
      (fun b => b ++ "\\" ++ Scope.absolute c.target) = c.importedName base := by
    cases base <;> rfl
  unfold Scope.addClause
  simp only [htarget, lastPiece_importedName]
  rfl

theorem foldl_addClause (base : Option String) (s : Scope) (cs : List UseClause) :
    cs.foldl (Scope.addClause (base.map Scope.absolute)) s =
      { s with aliases := s.aliases.insertAll (cs.map (UseClause.entry base)) } := by
  induction cs generalizing s with
  | nil => rfl
  | cons c cs ih =>
    rw [List.foldl_cons, ih, addClause_eq]
    rfl

theorem addImports_eq (s : Scope) (d : UseDecl) :
    s.addImports d = { s with aliases := s.aliases.insertAll d.recorded } := by
  cases d with
  | clauses cs => exact foldl_addClause none s cs
  | grouped keyword base cs =>
    cases keyword with
    | none => exact foldl_addClause (some base) s cs
    | some => rfl

/-- Clauses without the keyworded ones are all of them just if none is keyworded. -/
theorem map_entry_filter_iff (base : Option String) (cs : List UseClause) :
    cs.map (UseClause.entry base) =
        (cs.filter (·.keyword.isNone)).map (UseClause.entry base) ↔
      ∀ c ∈ cs, c.keyword = none := by
  constructor
  · intro h
    have hlength := congrArg List.length h
    rw [List.length_map, List.length_map] at hlength
    have hall := List.length_filter_eq_length_iff.1 hlength.symm
    exact fun c hc => Option.isNone_iff_eq_none.1 (hall c hc)
  · intro h
    rw [List.filter_eq_self.2 fun c hc => Option.isNone_iff_eq_none.2 (h c hc)]

/-- What is recorded is what is imported just if no keyword stands elsewhere than in front of a
group. -/
theorem UseDecl.recorded_eq_iff {d : UseDecl} : d.recorded = d.classImports ↔ d.Heeded := by
  cases d with
  | clauses cs =>
    cases cs with
    | nil => exact iff_of_true rfl nofun
    | cons c cs =>
      cases hkeyword : c.keyword with
      | none =>
        have hnone : keyword? (.clauses (c :: cs)) = none := hkeyword
        rw [classImports, hnone]
        exact map_entry_filter_iff none (c :: cs)
      | some word =>
        have hsome : keyword? (.clauses (c :: cs)) = some word := hkeyword
        rw [classImports, hsome]
        refine iff_of_false nofun fun hheeded => ?_
        rw [hheeded c List.mem_cons_self] at hkeyword
        cases hkeyword
  | grouped keyword base cs =>
    cases keyword with
    | none => exact map_entry_filter_iff (some base) cs
    | some => exact iff_of_true rfl trivial

/-! ## Imports in force -/

/-- The imports that these declarations record, one after the other. -/
def recordedBy (uses : List UseDecl) : Dictionary String :=
  Dictionary.empty.insertAll (uses.flatMap UseDecl.recorded)

theorem recordedBy_append_singleton (uses : List UseDecl) (d : UseDecl) :
    recordedBy (uses ++ [d]) = (recordedBy uses).insertAll d.recorded := by
  simp [recordedBy, Dictionary.insertAll, List.foldl_append]

/-- A statement leaves the imports that are in force behind it. -/
theorem aliases_reflectStmt (hleaf : stmt.kind.IsLeaf) (h : s.aliases = recordedBy uses) :
    (reflectStmt s stmt).2.aliases = recordedBy (usesBehind uses stmt) := by
  cases stmt with
  | mk lead line kind =>
    cases kind with
    | namespaceHeader => rfl
    | imports d =>
      rw [reflectStmt, reflectKind, addImports_eq, h]
      exact (recordedBy_append_singleton uses d).symm
    | namespaceBlock | block | conditional | directive => exact hleaf.elim
    | classDecl | interfaceDecl | functionDecl | constants | expression | traitDecl | enumDecl
    | other => exact h

/-- Behind statements, the imports in force are those recorded. -/
theorem aliases_reflectStmts (hleaf : ∀ leaf ∈ stmts, leaf.kind.IsLeaf) :
    (reflectStmts {} stmts).2.aliases = recordedBy (usesInForce stmts) := by
  induction stmts using List.reverseRecOn with
  | nil => rfl
  | append_singleton stmts stmt ih =>
    obtain ⟨hstmts, hstmt⟩ := List.forall_mem_append.1 hleaf
    have hstep := aliases_reflectStmt (hstmt stmt List.mem_cons_self) (ih hstmts)
    rw [reflectStmts_append, usesInForce, List.foldl_append]
    exact hstep

/-- The imports are these, the last one of every alias. -/
def Imports (aliases : Dictionary String) (entries : List (String × String)) : Prop :=
  ∀ word, aliases.get? word = (lastWith? Prod.fst word entries).map Prod.snd

theorem imports_recordedBy (uses : List UseDecl) :
    Imports (recordedBy uses) (uses.flatMap UseDecl.recorded) := by
  intro word
  rw [recordedBy, Dictionary.get?_insertAll, Dictionary.get?_empty, Option.or_none]

/-- Each function and each method is declared with these imports. -/
structure Declarations.Records (d : Declarations) (aliases : Dictionary String) : Prop where
  functions : ∀ f ∈ d.functions, f.aliases = aliases
  classes : ∀ c ∈ d.classes, ∀ m ∈ c.methods, m.aliases = aliases
  interfaces : ∀ i ∈ d.interfaces, ∀ m ∈ i.methods, m.aliases = aliases

theorem aliases_of_mem_methods {members : List Member} {m : DeclaredMethod}
    (h : m ∈ members.flatMap s.method?) : m.aliases = s.aliases := by
  obtain ⟨member, -, hm⟩ := List.mem_flatMap.1 h
  cases member with
  | method lead modifiers decl =>
    obtain rfl := List.mem_singleton.1 hm
    rfl
  | constants | properties | other => cases hm

theorem records_reflectStmt (hleaf : stmt.kind.IsLeaf) :
    (reflectStmt s stmt).1.Records s.aliases := by
  cases stmt with
  | mk lead line kind =>
    cases kind with
    | classDecl decl =>
      refine ⟨nofun, List.forall_mem_singleton.2 fun m hm => ?_, nofun⟩
      exact aliases_of_mem_methods hm
    | interfaceDecl decl =>
      refine ⟨nofun, nofun, List.forall_mem_singleton.2 fun m hm => ?_⟩
      exact aliases_of_mem_methods hm
    | functionDecl decl => exact ⟨List.forall_mem_singleton.2 rfl, nofun, nofun⟩
    | namespaceBlock | block | conditional | directive => exact hleaf.elim
    | namespaceHeader | imports | constants | expression | traitDecl | enumDecl | other =>
      exact ⟨nofun, nofun, nofun⟩

/-- Of what is recorded for an alias in any letter case, a clause is the source. -/
theorem Imports.exists_of_imported? {entries : List (String × String)} {word target : String}
    (h : Imports s.aliases entries) (himported : s.imported? word = some target) :
    ∃ short, (short, target) ∈ entries ∧ Scope.IsAlias short word.toList := by
  rw [← String.ofList_toList (s := word)] at himported
  obtain ⟨short, hentry, hshort⟩ := Scope.exists_of_imported? himported
  have hget := Dictionary.get?_eq_some_iff.2 hentry
  rw [h short] at hget
  obtain ⟨entry, hlast, rfl⟩ := Option.map_eq_some_iff.1 hget
  have hkey : entry.1 = short := key_of_lastWith? hlast
  subst hkey
  exact ⟨entry.1, mem_of_lastWith? hlast, hshort⟩

/-- Each function and each method is declared with the imports in force where it stands: those
recorded, the last one of every alias. They are the class imports, and no function or constant comes
in the place of a class, where keywords stand in front of groups only. -/
theorem exists_imports_in_force (f : SourceFile) {before behind : List Stmt} {stmt : Stmt}
    (h : leavesOf f.statements = before ++ stmt :: behind) :
    ∃ s : Scope,
      f.reflect.declarations = (reflectStmts {} before).1 ++
        ((reflectStmt s stmt).1 ++ (reflectStmts (reflectStmt s stmt).2 behind).1) ∧
      (reflectStmt s stmt).1.Records s.aliases ∧
      Imports s.aliases ((usesInForce before).flatMap UseDecl.recorded) ∧
      ((∀ d ∈ usesInForce before, d.Heeded) →
        Imports s.aliases ((usesInForce before).flatMap UseDecl.classImports) ∧
        ∀ word target, s.imported? word = some target →
          ∃ short, (short, target) ∈ (usesInForce before).flatMap UseDecl.classImports ∧
            Scope.IsAlias short word.toList) := by
  -- Flattened, the file is a list of leaves, so what is in force at one of them is what was
  -- recorded before it.
  have hleaf : ∀ leaf ∈ before ++ stmt :: behind, leaf.kind.IsLeaf := by
    rw [← h]
    exact isLeaf_of_mem_leavesOf f.statements
  obtain ⟨hbefore, hbehind⟩ := List.forall_mem_append.1 hleaf
  have hrecorded : Imports (reflectStmts {} before).2.aliases
      ((usesInForce before).flatMap UseDecl.recorded) := by
    rw [aliases_reflectStmts hbefore]
    exact imports_recordedBy (usesInForce before)
  refine ⟨(reflectStmts {} before).2, ?_, records_reflectStmt (hbehind stmt List.mem_cons_self),
    hrecorded, fun hheeded => ?_⟩
  · rw [SourceFile.reflect, ← reflectStmts_leavesOf, h, reflectStmts_append, reflectStmts]
  -- A use that is heeded records its class imports and nothing else.
  · have hclasses : (usesInForce before).flatMap UseDecl.recorded =
        (usesInForce before).flatMap UseDecl.classImports :=
      List.flatMap_congr fun d hd => UseDecl.recorded_eq_iff.2 (hheeded d hd)
    rw [hclasses] at hrecorded
    exact ⟨hrecorded, fun word target => hrecorded.exists_of_imported?⟩

/-- A group, then another class under one of its aliases. -/
theorem exists_imports_in_force_group :
    let uses : List UseDecl := [
      .grouped none "Lib" [⟨none, "Foo", some "F"⟩, ⟨none, "Base", none⟩],
      .clauses [⟨none, "\\X\\Base", none⟩]]
    let before : List Stmt := uses.map fun d => .mk [] 2 (.imports d)
    let stmt : Stmt := .mk [] 3 (.functionDecl ⟨"load", []⟩)
    let f : SourceFile := { statements := [.mk [] 2 (.block (before ++ [stmt]))], tail := [] }
    leavesOf f.statements = before ++ stmt :: [] ∧ (∀ d ∈ usesInForce before, d.Heeded) ∧
      ∃ s : Scope, (reflectStmt s stmt).1.Records s.aliases ∧
        Imports s.aliases [("F", "Lib\\Foo"), ("Base", "Lib\\Base"), ("Base", "X\\Base")] := by
  intro uses before stmt f
  have hleaves : leavesOf f.statements = before ++ stmt :: [] := rfl
  have hheeded : ∀ d ∈ usesInForce before, d.Heeded := by decide +kernel
  obtain ⟨s, -, hrecords, -, hclasses⟩ := exists_imports_in_force f hleaves
  have himports : (usesInForce before).flatMap UseDecl.classImports =
      [("F", "Lib\\Foo"), ("Base", "Lib\\Base"), ("Base", "X\\Base")] := by decide +kernel
  have hin := (hclasses hheeded).1
  rw [himports] at hin
  exact ⟨hleaves, hheeded, s, hrecords, hin⟩

/-- The import of a function is recorded, and comes in the place of a class. -/
theorem reflect_use_function :
    let source := "<?php\nuse function Z\\z;\nfunction f(z $a) {}\n".toList
    let d : UseDecl := .clauses [⟨some "function", "Z\\z", none⟩]
    (Parser.parse source).toOption.map (fun f => usesInForce (leavesOf f.statements)) = some [d] ∧
      d.classImports = [] ∧
      (reflect source).toOption.map (fun f => f.declarations.functions.map fun fn =>
        (fn.aliases.get? "z", fn.arguments.map (·.type))) =
          some [(some "Z\\z", [some "Z\\z"])] := by
  decide +kernel

end ApiCatalog.Php
