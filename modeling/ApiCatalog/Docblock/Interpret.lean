import ApiCatalog.Docblock.Tag

/-!
# What a documentation comment says

The cleaned lines in front of the first tag are free text: the summary ends at a line that
ends in a full stop or at a blank line, and the rest is the description. Each line that starts
a tag opens a block, and the lines behind it continue that block. Reading never fails.
-/

namespace ApiCatalog.Docblock

open Text

/-- Lines in front of the first tag, and the tag blocks. -/
def splitTags : List (List Char) → List (List Char) × List (List (List Char))
  | [] => ([], [])
  | line :: rest =>
    let (text, blocks) := splitTags rest
    if startsTag line then ([], (line :: text.map trim) :: blocks) else (line :: text, blocks)

/-- The summary's lines and the lines behind it, of free text that starts with no blank line. -/
def takeSummary : List (List Char) → List (List Char) × List (List Char)
  | [] => ([], [])
  | line :: rest =>
    if isBlankLine line then ([], rest)
    else if (trimEnd line).getLast? = some '.' then ([trim line], rest)
    else
      let (summary, after) := takeSummary rest
      (trim line :: summary, after)

/-- The docblock that cleaned lines say. -/
def ofLines (cleaned : List (List Char)) : Docblock :=
  let (text, blocks) := splitTags cleaned
  let (summary, rest) := takeSummary (text.dropWhile isBlankLine)
  { summary := .ofList (joinWith '\n' summary)
    description := .ofList (trim (joinWith '\n' rest))
    tags := blocks.filterMap fun block => Tag.ofBlock? (joinWith '\n' block) }

/-- The docblock that a documentation comment says. -/
def interpret (raw : String) : Docblock := ofLines (cleanLines raw.toList)

/-- The docblock of an element, empty if it has no documentation comment. -/
def interpret? (raw : Option String) : Docblock := (raw.map interpret).getD {}

end ApiCatalog.Docblock
