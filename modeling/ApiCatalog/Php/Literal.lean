import ApiCatalog.Text.Blank

/-!
# Quoted text in PHP

A text is quoted by putting it between two quotes of one kind and a backslash in front of every
backslash and quote of that kind in it. `unquote` undoes this, and drops the blanks around the
literal; in text that stands between no quotes it undoes the backslashes all the same.
-/

namespace ApiCatalog.Php

open Text

/-- The two kinds of quotes. -/
def isQuote (c : Char) : Bool := c == '\'' || c == '"'

/-- The text with a backslash in front of every backslash and every `quote`. -/
def escape (quote : Char) : List Char → List Char
  | [] => []
  | c :: rest =>
    if c == '\\' || c == quote then '\\' :: c :: escape quote rest else c :: escape quote rest

/-- The literal that stands for the text. -/
def quote (quote : Char) (text : List Char) : List Char := quote :: escape quote text ++ [quote]

/-- The text without the backslashes that stand in front of a backslash or quote. -/
def unescape : List Char → List Char
  | '\\' :: d :: rest =>
    if d == '\\' || isQuote d then d :: unescape rest else '\\' :: unescape (d :: rest)
  | c :: rest => c :: unescape rest
  | [] => []

/-- What stands between the two quotes of a literal; all of it if it has none. -/
def insideQuotes : List Char → List Char
  | c :: d :: rest =>
    if isQuote c && (d :: rest).getLast? == some c then (d :: rest).dropLast else c :: d :: rest
  | cs => cs

/-- The text that a literal stands for. -/
def unquote (literal : List Char) : List Char := unescape (insideQuotes (trim literal))

end ApiCatalog.Php
