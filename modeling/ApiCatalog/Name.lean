import ApiCatalog.Text.Blank

/-!
# Names of elements

An element has a short name and may lie in a namespace. Documents spell the namespace of an
element outside every namespace as `global` or leave it empty; a catalogue stores none for it,
and every other namespace without separators at its ends.
-/

namespace ApiCatalog

/-- How documents spell the absence of a namespace. -/
def globalNamespace : String := "global"

/-- The namespace as it is stored. -/
def storedNamespace (ns : String) : Option String :=
  if ns = "" ∨ ns = globalNamespace then none
  else some (.ofList (Text.dropAround '\\' ns.toList))

/-- The short name under its namespace. -/
def qualifiedName (ns : Option String) (short : String) : String :=
  match ns with
  | some ns => ns ++ "\\" ++ short
  | none => short

/-- A written name without separators in front. -/
def absoluteName (name : String) : String := .ofList (Text.dropLeading '\\' name.toList)

end ApiCatalog
