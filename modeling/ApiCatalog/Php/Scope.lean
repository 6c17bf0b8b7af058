import ApiCatalog.Dictionary
import ApiCatalog.Php.Tree
import ApiCatalog.Text.Blank
import ApiCatalog.Text.Split
import ApiCatalog.Text.Word

/-!
# Resolving names

A scope is the namespace in force and the imports made in it. A reference to a class is resolved
against both: a separator in front makes it absolute, the word `namespace` relative to the
current one; otherwise its first segment may be an imported alias, in any letter case.
-/

namespace ApiCatalog.Php

open Text

/-- The namespace in force, none outside all namespaces, and the imports by their alias. -/
structure Scope where
  ns : Option String := none
  aliases : Dictionary String := ∅
deriving DecidableEq, Repr, Inhabited

namespace Scope

/-- The name under the current namespace. -/
def qualify (s : Scope) (name : String) : String :=
  match s.ns with
  | some ns => ns ++ "\\" ++ name
  | none => name

/-- The target of the first import, in order of aliases, whose alias is the word up to letter
case. -/
def imported? (s : Scope) (word : String) : Option String :=
  (s.aliases.entries.find? fun e => e.1.map Char.toLower == word.map Char.toLower).map Prod.snd

/-- The qualified name that a reference stands for. -/
def resolve (s : Scope) (reference : String) : String :=
  let cs := trim reference.toList
  match cs with
  | '\\' :: rest => .ofList rest
  | _ =>
    match dropStart? "namespace\\".toList cs with
    | some rest => s.qualify (.ofList rest)
    | none =>
      match splitFirst? '\\' cs with
      | some (head, tail) =>
        match s.imported? (.ofList head) with
        | some target => target ++ "\\" ++ .ofList tail
        | none => s.qualify (.ofList cs)
      | none =>
        match s.imported? (.ofList cs) with
        | some target => target
        | none => s.qualify (.ofList cs)

/-- Names of types that are no classes, in lower case. -/
def builtinTypes : List String := [
  "array", "bool", "boolean", "callable", "false", "float", "double", "int", "integer", "iterable",
  "mixed", "never", "null", "object", "parent", "self", "static", "string", "true", "void"]

/-- The declared type with its class resolved. A type of several parts, and one that is no class,
stays as written. -/
def resolveType (s : Scope) (written : String) : String :=
  let bare := dropLeading '?' written.toList
  let isSimple := !bare.isEmpty && bare.all fun c => isAlphanumeric c || c == '_' || c == '\\'
  if !isSimple || builtinTypes.contains (.ofList (bare.map Char.toLower)) then written
  else if written.startsWith "?" then "?" ++ s.resolve (.ofList bare)
  else s.resolve (.ofList bare)

/-- The name without separators in front. -/
def absolute (name : String) : String := .ofList (dropLeading '\\' name.toList)

/-- The scope with one import more; `base` is the common namespace of its group. -/
def addClause (base : Option String) (s : Scope) (clause : UseClause) : Scope :=
  let target := absolute clause.target
  let target := base.elim target fun b => b ++ "\\" ++ target
  let word := clause.alias?.getD (.ofList (lastPiece '\\' target.toList))
  { s with aliases := s.aliases.insert word target }

/-- The scope behind an import declaration. A group that a keyword stands in front of imports no
classes. -/
def addImports (s : Scope) : UseDecl → Scope
  | .clauses clauses => clauses.foldl (addClause none) s
  | .grouped none base clauses => clauses.foldl (addClause (some (absolute base))) s
  | .grouped (some _) _ _ => s

end Scope
end ApiCatalog.Php
