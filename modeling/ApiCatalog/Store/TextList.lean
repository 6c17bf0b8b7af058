import ApiCatalog.Json.Decode
import ApiCatalog.Json.Printer

/-!
# Lists of texts in one text

A row keeps a list of types as the text of a JSON array. A text that is no such array is read as
the empty list, so it never keeps a row from being read.
-/

namespace ApiCatalog.TextList

/-- The text of a list. -/
def write (items : List String) : String := .ofList (Json.texts items).compact

/-- The list that a text writes. -/
def read (s : String) : List String :=
  ((Json.read? s.toList).bind (Json.list? Json.text?)).getD []

end ApiCatalog.TextList
