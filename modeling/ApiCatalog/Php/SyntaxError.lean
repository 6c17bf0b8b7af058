/-!
# Syntax errors

What is wrong with source text that is not PHP: a bracket or semicolon is missing behind the
last token that could be read, or something stands where it cannot.
-/

namespace ApiCatalog.Php

/-- A syntax error with the number of its line. -/
inductive SyntaxError where
  | missing (symbol : String) (line : Nat)
  | unexpected (text : String) (line : Nat)
deriving DecidableEq, Repr, Inhabited

namespace SyntaxError

/-- The line of the error. -/
def line : SyntaxError → Nat
  | .missing _ line | .unexpected _ line => line

/-- What is wrong, in words. -/
def message : SyntaxError → String
  | .missing symbol _ => "syntax error, missing `" ++ symbol ++ "`"
  | .unexpected text _ =>
    if text.isEmpty then "syntax error" else "syntax error, unexpected `" ++ text ++ "`"

end SyntaxError
end ApiCatalog.Php
