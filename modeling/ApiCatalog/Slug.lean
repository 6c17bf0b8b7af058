import ApiCatalog.Text.Blank
import ApiCatalog.Text.Letter
import ApiCatalog.Text.Number
import ApiCatalog.Text.LowerCase

/-!
# Slugs

A slug names a piece of software in an address: its name in lower case, with a hyphen for whatever
stands between letters and numbers, and none at the ends.
-/

namespace ApiCatalog

open Text

/-- A character that a slug keeps. -/
def isSlugChar (c : Char) : Bool := isLetter c || isNumber c

/-- The text with one hyphen for every run of characters that `keep` rejects; `inGap` once such a
run has begun. -/
def hyphenate (keep : Char → Bool) (inGap : Bool) : List Char → List Char
  | [] => []
  | c :: rest =>
    if keep c then c :: hyphenate keep false rest
    else if inGap then hyphenate keep true rest
    else '-' :: hyphenate keep true rest

/-- The slug of a name; empty if the name has neither letters nor numbers. -/
def slugify (name : String) : String :=
  .ofList (dropAround '-' (hyphenate isSlugChar false (lower name.toList)))

end ApiCatalog
