import ApiCatalog.Document.Basic
import ApiCatalog.Php.Reflect
import ApiCatalog.Text.Split

/-!
# Class aliases of a release

A release lists the old names of its classes in a file of calls that register them. The file is
scanned line by line: a line that mentions the call is read as PHP on its own, and counts if its
first statement is that call with two or three literal arguments. No line makes the scan fail.
-/

namespace ApiCatalog.Classmap

open Php Text

/-- What a line must mention, in any letter case. -/
def marker : List Char := "jloader::registeralias".toList

/-- The version that drops an alias whose registration does not name one. -/
def defaultVersion : String := "4.0"

/-- The text mentions the marker. -/
def mentionsMarker (line : List Char) : Bool := occursIn marker (line.map Char.toLower)

/-- The value of a literal argument. -/
def literal? : Expr → Option String
  | .text literal => some (.ofList (unquote literal.toList))
  | .number literal => some literal
  | _ => none

/-- The scope and method are those of a registration. -/
def isRegistration (scope method : String) : Bool :=
  ((splitOn '\\' (dropLeading '\\' scope.toList)).headD [] == "JLoader".toList) &&
    method == "registerAlias"

/-- The alias that the values of a registration name. -/
def ofValues? : List String → Option AliasEntry
  | [oldName, newName] => some ⟨absoluteName oldName, absoluteName newName, defaultVersion⟩
  | [oldName, newName, version] => some ⟨absoluteName oldName, absoluteName newName, version⟩
  | _ => none

/-- The alias that an expression registers. -/
def ofExpr? : Expr → Option AliasEntry
  | .staticCall scope method arguments =>
    if isRegistration scope method then (arguments.mapM literal?).bind ofValues? else none
  | _ => none

/-- The expression that the items of a file start with, comments apart. -/
def firstExpr? : List FileItem → Option Expr
  | .comment _ :: rest => firstExpr? rest
  | .statement (.expression e) :: _ => some e
  | _ => none

/-- The alias that a line registers. -/
def ofLine? (line : List Char) : Option AliasEntry :=
  match Parser.parse ("<?php ".toList ++ line) with
  | .error _ => none
  | .ok file =>
    ((firstExpr? file.items).bind ofExpr?).filter fun a => a.oldName != "" && a.newName != ""

/-- The aliases that a file registers, in order of its lines. -/
def scan (source : List Char) : List AliasEntry :=
  ((lines source).filter mentionsMarker).filterMap ofLine?

end ApiCatalog.Classmap
