/-!
# Docblocks

A *docblock* is what a documentation comment says: a summary, a description and a list of
tags. A tag has a name and a description, and fields that only some tags carry.
-/

namespace ApiCatalog

/-- One tag of a docblock. -/
structure Tag where
  name : String
  description : String
  /-- The types of a value: returned, thrown, or held by a parameter or property. -/
  types : Option (List String) := none
  /-- The address a `link` tag leads to. -/
  link : Option String := none
  /-- The parameter or property the tag is about, without its sigil. -/
  varName : Option String := none
  /-- The element a `see`, `uses` or `used-by` tag names. -/
  refers : Option String := none
  /-- The version a `version`, `since` or `deprecated` tag names. -/
  version : Option String := none
deriving DecidableEq, Repr, Inhabited

/-- What a documentation comment says. -/
structure Docblock where
  summary : String := ""
  description : String := ""
  tags : List Tag := []
deriving DecidableEq, Repr, Inhabited

namespace Docblock

/-- The docblock says nothing. -/
def isEmpty (d : Docblock) : Bool :=
  d.summary.isEmpty && d.description.isEmpty && d.tags.isEmpty

/-- The tags of one name, in order. -/
def named (d : Docblock) (name : String) : List Tag := d.tags.filter (·.name == name)

/-- The last tag of one name. -/
def lastNamed? (d : Docblock) (name : String) : Option Tag := (d.named name).getLast?

end Docblock
end ApiCatalog
