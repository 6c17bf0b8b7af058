import ApiCatalog.Document.Basic
import ApiCatalog.Json.Decode
import ApiCatalog.Text.Utf8

/-!
# Documents from JSON

The inverse of writing, and wider: fields may be left out where an entry has a natural default,
unknown ones are skipped, and every entry but a docblock may be an array of its fields. A
docblock that is any array says nothing. `level` counts the arrays and objects around a value:
a docblock is read whole, unknown fields included, and whole values nest less than 128 deep.
-/

namespace ApiCatalog

open Json

/-- The most arrays and objects that may lie inside each other where a value is read whole. -/
def deepest : Nat := 127

def Tag.decode (j : Json) : Option Tag := do
  match ← members?
      ["name", "description", "types", "link", "variable", "refers", "version"] j with
  | [name, description, types, link, variable', refers, version] =>
    return {
      name := ← required text? name
      description := ← orElse "" text? description
      types := ← optional (list? text?) types
      link := ← optional text? link
      varName := ← optional text? variable'
      refers := ← optional text? refers
      version := ← optional text? version }
  | _ => none

def Docblock.decode (level : Nat) (j : Json) : Option Docblock :=
  if deepest < level + j.nesting || !j.isPlain then none
  else
    match j with
    | .array _ => some {}
    | .object _ => do
      match ← members? ["summary", "description", "tags"] j with
      | [summary, description, tags] =>
        return {
          summary := (← optional text? summary).getD ""
          description := (← optional text? description).getD ""
          tags := ← orElse [] (list? Tag.decode) tags }
      | _ => none
    | _ => none

def ArgumentEntry.decode (j : Json) : Option ArgumentEntry := do
  match ← members? ["name", "default", "type"] j with
  | [name, default, type] =>
    return {
      name := ← required text? name
      default := ← optional text? default
      type := ← orElse "" text? type }
  | _ => none

def ConstantEntry.decode (level : Nat) (j : Json) : Option ConstantEntry := do
  match ← members? ["name", "docblock"] j with
  | [name, docblock] =>
    return {
      name := ← required text? name
      docblock := ← orElse {} (Docblock.decode (level + 1)) docblock }
  | _ => none

def PropertyEntry.decode (level : Nat) (j : Json) : Option PropertyEntry := do
  match ← members? ["name", "static", "visibility", "docblock"] j with
  | [name, isStatic, visibility, docblock] =>
    return {
      name := ← required text? name
      isStatic := ← orElse false bool? isStatic
      visibility := ← orElse "public" text? visibility
      docblock := ← orElse {} (Docblock.decode (level + 1)) docblock }
  | _ => none

/-- The imports of a function or method. -/
def decodeAliases (j : Json) : Option (Dictionary String) :=
  (entries? text? j).map Dictionary.ofList

def MethodEntry.decode (level : Nat) (j : Json) : Option MethodEntry := do
  match ← members? ["name", "aliases", "final", "abstract", "static", "visibility", "arguments",
      "docblock"] j with
  | [name, aliases, isFinal, isAbstract, isStatic, visibility, arguments, docblock] =>
    return {
      name := ← required text? name
      aliases := ← orElse ∅ decodeAliases aliases
      isFinal := ← optional bool? isFinal
      isAbstract := ← optional bool? isAbstract
      isStatic := ← orElse false bool? isStatic
      visibility := ← orElse "public" text? visibility
      arguments := ← orElse [] (list? ArgumentEntry.decode) arguments
      docblock := ← orElse {} (Docblock.decode (level + 1)) docblock }
  | _ => none

def FunctionEntry.decode (level : Nat) (j : Json) : Option FunctionEntry := do
  match ← members? ["name", "namespace", "aliases", "arguments", "docblock"] j with
  | [name, ns, aliases, arguments, docblock] =>
    return {
      name := ← required text? name
      ns := ← required text? ns
      aliases := ← orElse ∅ decodeAliases aliases
      arguments := ← orElse [] (list? ArgumentEntry.decode) arguments
      docblock := ← orElse {} (Docblock.decode (level + 1)) docblock }
  | _ => none

def ClassEntry.decode (level : Nat) (j : Json) : Option ClassEntry := do
  match ← members? ["name", "namespace", "final", "abstract", "extends", "implements",
      "constants", "properties", "methods", "docblock"] j with
  | [name, ns, isFinal, isAbstract, parent, implements, constants, properties, methods,
      docblock] =>
    return {
      name := ← required text? name
      ns := ← required text? ns
      isFinal := ← orElse false bool? isFinal
      isAbstract := ← orElse false bool? isAbstract
      parent := ← orElse "" text? parent
      implements := ← orElse [] (list? text?) implements
      constants := ← orElse [] (list? (ConstantEntry.decode (level + 2))) constants
      properties := ← orElse [] (list? (PropertyEntry.decode (level + 2))) properties
      methods := ← orElse [] (list? (MethodEntry.decode (level + 2))) methods
      docblock := ← orElse {} (Docblock.decode (level + 1)) docblock }
  | _ => none

def InterfaceEntry.decode (level : Nat) (j : Json) : Option InterfaceEntry := do
  match ← members? ["name", "namespace", "extends", "constants", "properties", "methods",
      "docblock"] j with
  | [name, ns, parents, constants, properties, methods, docblock] =>
    return {
      name := ← required text? name
      ns := ← required text? ns
      parents := ← orElse [] (list? text?) parents
      constants := ← orElse [] (list? (ConstantEntry.decode (level + 2))) constants
      properties := ← orElse [] (list? (PropertyEntry.decode (level + 2))) properties
      methods := ← orElse [] (list? (MethodEntry.decode (level + 2))) methods
      docblock := ← orElse {} (Docblock.decode (level + 1)) docblock }
  | _ => none

def AliasEntry.decode (j : Json) : Option AliasEntry := do
  match ← members? ["alias", "original", "version"] j with
  | [oldName, newName, version] =>
    return {
      oldName := ← required text? oldName
      newName := ← required text? newName
      version := ← required text? version }
  | _ => none

def FileEntry.decode (level : Nat) (j : Json) : Option FileEntry := do
  match ← members? ["docblock", "constants", "functions", "classes", "interfaces"] j with
  | [docblock, constants, functions, classes, interfaces] =>
    return {
      docblock := ← orElse {} (Docblock.decode (level + 1)) docblock
      constants := ← orElse [] (list? (ConstantEntry.decode (level + 2))) constants
      functions := ← orElse [] (list? (FunctionEntry.decode (level + 2))) functions
      classes := ← orElse [] (list? (ClassEntry.decode (level + 2))) classes
      interfaces := ← orElse [] (list? (InterfaceEntry.decode (level + 2))) interfaces }
  | _ => none

def Document.decode (j : Json) : Option Document := do
  match ← members? ["files", "aliases"] j with
  | [files, aliases] =>
    return {
      files := ← orElse ∅ (fun j => (entries? (FileEntry.decode 2) j).map Dictionary.ofList) files
      aliases := ← orElse [] (list? AliasEntry.decode) aliases }
  | _ => none

/-- The document that a text writes. -/
def Document.read? (text : List Char) : Option Document := (Json.read? text).bind Document.decode

/-- What a broken piece of bytes is read as: half of a surrogate pair, so a string with one denotes
no text, behind a letter that no escape can have in it. -/
def brokenPiece : List Char := ['z', '\\', 'u', 'd', '8', '0', '0']

/-- The document that a file holds. -/
def Document.ofBytes? (bytes : List UInt8) : Option Document :=
  Document.read? (Text.decodeWith brokenPiece bytes)

end ApiCatalog
