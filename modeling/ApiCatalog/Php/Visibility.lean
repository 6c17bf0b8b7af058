/-!
# Visibility of members
-/

namespace ApiCatalog.Php

/-- Who may use a member. -/
inductive Visibility where
  | isPublic
  | isProtected
  | isPrivate
deriving DecidableEq, Repr, Inhabited

namespace Visibility

/-- The keyword of a visibility. -/
def keyword : Visibility → String
  | .isPublic => "public"
  | .isProtected => "protected"
  | .isPrivate => "private"

/-- The visibility that a keyword stands for, in any letter case; public for any other text. -/
def ofKeyword (keyword : String) : Visibility :=
  match keyword.map Char.toLower with
  | "protected" => .isProtected
  | "private" => .isPrivate
  | _ => .isPublic

end Visibility
end ApiCatalog.Php
