/-!
# Tokens of PHP source

A token keeps its own text and everything between it and the token in front: blanks, comments
and markup outside the PHP tags. So the text of any stretch of source can be put together from
its tokens, and a declaration finds its documentation comment in front of its first token.
-/

namespace ApiCatalog.Php

/-- A stretch of source between two tokens. -/
inductive Trivia where
  | blank (text : String)
  | comment (text : String)
  /-- From a closing tag to the end of the next opening tag. -/
  | markup (text : String)
deriving DecidableEq, Repr, Inhabited

/-- The source text of the stretch. -/
def Trivia.text : Trivia → String
  | .blank text | .comment text | .markup text => text

/-- The comment is a documentation comment. -/
def isDocComment (comment : String) : Bool := comment.startsWith "/**"

/-- The kinds of quotes around text that may hold expressions. -/
inductive Quote where
  | double
  | backtick
  /-- A heredoc with its label. -/
  | heredoc (label : String)
deriving DecidableEq, Repr, Inhabited

/-- The kinds of tokens. -/
inductive TokenKind where
  /-- A name or keyword. -/
  | word
  /-- A `$` and a name. -/
  | variable
  | number
  /-- Text in single quotes. -/
  | quoted
  /-- Text in which expressions may stand, without one. -/
  | template (quote : Quote)
  /-- The part of such a text in front of its first expression. -/
  | templateHead (quote : Quote)
  /-- A part between two expressions. -/
  | templateMiddle
  /-- The part behind the last expression. -/
  | templateTail
  /-- A heredoc whose label is in single quotes. -/
  | nowdoc
  /-- An operator or bracket. -/
  | symbol
  /-- Text that starts no token, or starts one that does not end. -/
  | broken
  /-- The end of the source. -/
  | stop
deriving DecidableEq, Repr, Inhabited

/-- A token with what stands in front of it. -/
structure Token where
  lead : List Trivia := []
  kind : TokenKind
  text : String
  /-- The number of the line the token starts on, from 1. -/
  line : Nat
deriving DecidableEq, Repr, Inhabited

namespace Token

/-- The number of line feeds in a text. -/
def lineFeeds (text : String) : Nat := text.toList.count '\n'

/-- The number of the line the token ends on. -/
def lastLine (t : Token) : Nat := t.line + lineFeeds t.text

/-- The source text in front of the token. -/
def leadText (t : Token) : String := String.join (t.lead.map Trivia.text)

/-- The operator or bracket `s`. -/
def isSymbol (t : Token) (s : String) : Bool := t.kind == .symbol && t.text == s

/-- The keyword in lower case, or nothing if the token is no word. -/
def keyword (t : Token) : String := if t.kind == .word then t.text.map Char.toLower else ""

/-- Markup stands somewhere in front of the token. -/
def followsMarkup (t : Token) : Bool :=
  t.lead.any fun
    | .markup _ => true
    | _ => false

end Token
end ApiCatalog.Php
