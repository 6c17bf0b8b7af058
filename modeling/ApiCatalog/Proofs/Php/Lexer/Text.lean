import ApiCatalog.Php.Lexer
import Mathlib.Data.List.TakeWhile

/-!
# The text of tokens

A scan cuts the text in two: what it takes, and what is left. So what stands in front of a token
and the token itself are stretches of the source one behind the other, and each token is at least
one character of it; with a step for each character left there are always enough.
-/

namespace ApiCatalog.Php

/-- `taken` stands at the start of the text, and `rest`, which is less, is left of it. -/
structure Cuts (cs taken rest : List Char) : Prop where
  append_eq : taken ++ rest = cs
  ne_nil : taken ≠ []

/-- What is left is shorter, since something is taken. -/
theorem Cuts.length_lt {cs taken rest : List Char} (h : Cuts cs taken rest) :
    rest.length < cs.length := by
  have hpos := List.length_pos_iff.2 h.ne_nil
  rw [← h.append_eq, List.length_append]
  omega

/-! ## Between tokens -/

/-- An opening tag takes its characters and leaves the others. -/
theorem afterOpeningTag?_append {cs taken rest : List Char}
    (h : afterOpeningTag? cs = some (taken, rest)) : taken ++ rest = cs := by
  unfold afterOpeningTag? at h
  split at h
  · cases h; rfl
  · split at h <;> (cases h; rfl)
  · cases h; rfl
  · cases h

/-- Markup takes what stands in front of the next opening tag, and the tag. -/
theorem scanMarkup_append (cs : List Char) : (scanMarkup cs).1 ++ (scanMarkup cs).2 = cs := by
  fun_induction scanMarkup cs with
  | case1 => rfl
  | case2 c rest split h => exact afterOpeningTag?_append h
  | case3 c rest h taken rest' hscan ih =>
    rw [hscan] at ih
    exact congrArg (c :: ·) ih

/-- A line comment takes no character away. -/
theorem scanLineComment_append (cs : List Char) :
    (scanLineComment cs).1 ++ (scanLineComment cs).2 = cs := by
  fun_induction scanLineComment cs with
  | case1 => rfl
  | case2 c rest h => rfl
  | case3 c rest h taken rest' hscan ih =>
    rw [hscan] at ih
    exact congrArg (c :: ·) ih

theorem scanBlockComment_append {cs taken rest : List Char}
    (h : scanBlockComment cs = some (taken, rest)) : taken ++ rest = cs := by
  fun_induction scanBlockComment cs generalizing taken rest with
  | case1 => cases h
  | case2 rest' => cases h; rfl
  | case3 c rest' hne ih =>
    obtain ⟨⟨taken', rest''⟩, hscan, heq⟩ := Option.map_eq_some_iff.1 h
    cases heq
    exact congrArg (c :: ·) (ih hscan)

/-- What stands between tokens is cut off the front, never empty. -/
theorem scanTrivia_cuts {cs rest : List Char} {trivia : Trivia}
    (h : scanTrivia cs = some (trivia, rest)) : Cuts cs trivia.text.toList rest := by
  unfold scanTrivia at h
  split at h
  · cases h
  · obtain ⟨⟨taken, rest'⟩, hscan, heq⟩ := Option.map_eq_some_iff.1 h
    cases heq
    exact ⟨by simp [Trivia.text, scanBlockComment_append hscan], by simp [Trivia.text]⟩
  · cases h
    exact ⟨by simp [Trivia.text, scanLineComment_append], by simp [Trivia.text]⟩
  · cases h
    exact ⟨by simp [Trivia.text, scanMarkup_append], by simp [Trivia.text]⟩
  · split_ifs at h with hspace hcomment
    · cases h
      exact ⟨by simp [Trivia.text, List.takeWhile_append_dropWhile], by simp [Trivia.text]⟩
    · cases h
      have hhash := (Bool.and_eq_true_iff.1 hcomment).1
      rw [beq_iff_eq] at hhash
      exact ⟨by simp [Trivia.text, scanLineComment_append, hhash], by simp [Trivia.text]⟩

/-- However many pieces stand in front of a token, they are cut off one by one. -/
theorem scanLead_append (n : Nat) (cs : List Char) :
    (scanLead n cs).1.flatMap (fun t => t.text.toList) ++ (scanLead n cs).2 = cs := by
  fun_induction scanLead n cs with
  | case1 cs => rfl
  | case2 n cs h => rfl
  | case3 n cs trivia rest h lead rest' hlead ih =>
    rw [hlead] at ih
    rw [List.flatMap_cons, List.append_assoc, ih, (scanTrivia_cuts h).append_eq]

/-! ## Numbers -/

/-- Digits and the separators between them are cut off the front. -/
theorem scanDigits_append (digit : Char → Bool) (cs : List Char) :
    (scanDigits digit cs).1 ++ (scanDigits digit cs).2 = cs := by
  fun_induction scanDigits digit cs with
  | case1 => rfl
  | case2 c rest h taken rest' hscan ih =>
    rw [hscan] at ih
    exact congrArg (c :: ·) ih
  | case3 c rest h => rfl

theorem scanFraction_append (cs : List Char) : (scanFraction cs).1 ++ (scanFraction cs).2 = cs := by
  unfold scanFraction
  split
  · simp [scanDigits_append]
  · rfl

/-- The mark of an exponent is what the text starts with. -/
theorem exponentMark_append (cs : List Char) :
    exponentMark cs ++ cs.drop (exponentMark cs).length = cs := by
  unfold exponentMark
  split
  · split_ifs <;> rfl
  · rfl

theorem scanExponent_append (cs : List Char) : (scanExponent cs).1 ++ (scanExponent cs).2 = cs := by
  unfold scanExponent
  split
  · rfl
  · simp [scanDigits_append, exponentMark_append]

/-- A number that starts with a zero takes the zero at least. -/
theorem scanZero_cuts {cs : List Char} (h : cs ≠ []) : Cuts cs (scanZero cs).1 (scanZero cs).2 := by
  unfold scanZero
  split
  · split
    · split_ifs
      · exact ⟨by simp [scanDigits_append], by simp⟩
      · exact ⟨rfl, by simp⟩
    · split_ifs <;> exact ⟨by simp [scanDigits_append], by simp⟩
  · exact ⟨List.take_append_drop 1 _, by simpa using h⟩

/-- A number takes its first digit at least, or the dot in front of it. -/
theorem scanNumber_cuts {c d : Char} {cs : List Char}
    (h : c.isDigit || (c == '.' && d.isDigit)) :
    Cuts (c :: d :: cs) (scanNumber (c :: d :: cs)).1 (scanNumber (c :: d :: cs)).2 := by
  unfold scanNumber
  dsimp only
  split_ifs
  · exact scanZero_cuts (by simp)
  · refine ⟨by simp [scanExponent_append, scanFraction_append, scanDigits_append], ?_⟩
    rcases Bool.or_eq_true_iff.1 h with h | h
    · simp [scanDigits, h]
    · obtain ⟨rfl, -⟩ : c = '.' ∧ d.isDigit := by simpa using h
      simp [scanDigits, scanFraction]

/-! ## Text -/

/-- A quoted text ends with its quote, and the rest stays. -/
theorem scanQuoted_append {cs taken rest : List Char} (h : scanQuoted cs = some (taken, rest)) :
    taken ++ rest = cs := by
  fun_induction scanQuoted cs generalizing taken rest with
  | case1 => cases h
  | case2 c rest' ih =>
    obtain ⟨⟨taken', rest''⟩, hscan, heq⟩ := Option.map_eq_some_iff.1 h
    cases heq
    exact congrArg ('\\' :: c :: ·) (ih hscan)
  | case3 rest' => cases h; rfl
  | case4 c rest' hne hne' ih =>
    obtain ⟨⟨taken', rest''⟩, hscan, heq⟩ := Option.map_eq_some_iff.1 h
    cases heq
    exact congrArg (c :: ·) (ih hscan)

/-- A closing label is what the text starts with, blanks in front included. -/
theorem labelAt?_append {label : String} {cs taken rest : List Char}
    (h : labelAt? label cs = some (taken, rest)) : taken ++ rest = cs := by
  unfold labelAt? at h
  simp only [Option.ite_none_right_eq_some, Bool.and_eq_true, List.isPrefixOf_iff_prefix,
    Option.some.injEq, Prod.mk.injEq] at h
  obtain ⟨⟨⟨after, hafter⟩, -⟩, rfl, rfl⟩ := h
  rw [← hafter, List.drop_left, List.append_assoc, hafter, List.takeWhile_append_dropWhile]

theorem heredocEnd?_append {label : String} {cs taken rest : List Char}
    (h : heredocEnd? label cs = some (taken, rest)) : taken ++ rest = cs := by
  unfold heredocEnd? at h
  split at h
  all_goals first
    | cases h
    | obtain ⟨⟨taken', rest'⟩, hlabel, heq⟩ := Option.map_eq_some_iff.1 h
      cases heq
      simp [labelAt?_append hlabel]

/-- A plain document ends with its label. -/
theorem scanNowdoc_append {label : String} {cs taken rest : List Char}
    (h : scanNowdoc label cs = some (taken, rest)) : taken ++ rest = cs := by
  fun_induction scanNowdoc label cs generalizing taken rest with
  | case1 => cases h
  | case2 c rest' split hend => 
    cases h
    exact heredocEnd?_append hend
  | case3 c rest' hend ih =>
    obtain ⟨⟨taken', rest''⟩, hscan, heq⟩ := Option.map_eq_some_iff.1 h
    cases heq
    exact congrArg (c :: ·) (ih hscan)

/-- The end of a template is a quote or a label, which the text starts with. -/
theorem templateEnd?_append {quote : Quote} {cs taken rest : List Char}
    (h : templateEnd? quote cs = some (taken, rest)) : taken ++ rest = cs := by
  unfold templateEnd? at h
  split at h
  · cases h; rfl
  · cases h; rfl
  · exact heredocEnd?_append h
  · cases h

/-- A stretch of a template goes up to its end or to the brace of an expression. -/
theorem scanTemplate_append {quote : Quote} {cs taken rest : List Char} {hole : Bool}
    (h : scanTemplate quote cs = some (taken, hole, rest)) : taken ++ rest = cs := by
  fun_induction scanTemplate quote cs generalizing taken rest hole with
  | case1 => cases h
  | case2 c rest' ending rest'' hend =>
    cases h
    exact templateEnd?_append hend
  | case3 c rest' hend hbrace => cases h; rfl
  | case4 hole rest' hend => cases h; rfl
  | case5 d rest' hend hbreak hbrace ih | case6 d rest' hend hbreak hbrace ih | case7 c rest' hend hbrace hdollar hescape ih =>
    obtain ⟨⟨taken', hole', rest''⟩, hscan, heq⟩ := Option.map_eq_some_iff.1 h
    cases heq
    have := ih hscan
    simp [← this]

/-- The quote around a label is what the text starts with. -/
theorem labelMark_append (cs : List Char) : labelMark cs ++ cs.drop (labelMark cs).length = cs := by
  unfold labelMark
  split <;> rfl

/-- The start of a document is cut off, its label and line break included. -/
theorem scanHeredocStart_append {cs taken rest : List Char} {label : String} {bare : Bool}
    (h : scanHeredocStart cs = some (taken, label, bare, rest)) : taken ++ rest = cs := by
  unfold scanHeredocStart at h
  simp only [Option.ite_none_right_eq_some, Bool.and_eq_true, List.isPrefixOf_iff_prefix,
    Option.some.injEq, Prod.mk.injEq] at h
  obtain ⟨⟨⟨-, rest', hrest⟩, -⟩, rfl, rfl, rfl, rfl⟩ := h
  have hstart := labelMark_append (cs.dropWhile isGap)
  have hlabel := List.takeWhile_append_dropWhile (p := isNamePart)
    (l := (cs.dropWhile isGap).drop (labelMark (cs.dropWhile isGap)).length)
  rw [← hrest, List.drop_left, List.append_assoc, hrest, List.append_assoc, hlabel,
    List.append_assoc, hstart, List.takeWhile_append_dropWhile]

/-! ## Tokens -/

/-- No symbol is empty. -/
theorem symbol_ne_nil {s : String} (h : s ∈ symbols) : s.toList ≠ [] := by
  revert s
  decide +kernel

/-- A symbol is cut off the front. -/
theorem scanSymbol?_cuts {cs rest : List Char} {s : String} (h : scanSymbol? cs = some (s, rest)) :
    Cuts cs s.toList rest := by
  obtain ⟨s', hfind, heq⟩ := Option.map_eq_some_iff.1 h
  cases heq
  have hfound := List.find?_some (p := fun s : String => s.toList.isPrefixOf cs) hfind
  obtain ⟨after, rfl⟩ := List.isPrefixOf_iff_prefix.1 hfound
  refine ⟨?_, symbol_ne_nil (List.mem_of_find?_eq_some hfind)⟩
  rw [← String.length_toList, List.drop_left]

/-- The token stands at the start of the text. -/
structure Lexeme.Cuts (lexeme : Lexeme) (cs : List Char) : Prop extends
    Php.Cuts cs lexeme.text lexeme.rest where
  kind_ne_stop : lexeme.kind ≠ .stop

/-- A template is cut off with what it starts with, wherever its stretch ends. -/
theorem templateLexeme_cuts (quote : Quote) {whole partly : TokenKind} (hwhole : whole ≠ .stop)
    (hpartly : partly ≠ .stop) (start : List Char) (hstart : start ≠ [])
    (opened : List OpenTemplate) (cs : List Char) :
    (templateLexeme quote whole partly start opened cs).Cuts (start ++ cs) := by
  unfold templateLexeme
  split
  · rename_i hscan
    exact ⟨⟨by simp [scanTemplate_append hscan], by simp [hstart]⟩, hpartly⟩
  · rename_i hscan
    exact ⟨⟨by simp [scanTemplate_append hscan], by simp [hstart]⟩, hwhole⟩
  · exact ⟨⟨rfl, hstart⟩, nofun⟩

theorem quotedLexeme_cuts (start : List Char) (hstart : start ≠ []) (opened : List OpenTemplate)
    (cs : List Char) : (quotedLexeme start opened cs).Cuts (start ++ cs) := by
  unfold quotedLexeme
  split
  · rename_i hscan
    exact ⟨⟨by simp [scanQuoted_append hscan], by simp [hstart]⟩, nofun⟩
  · exact ⟨⟨rfl, hstart⟩, nofun⟩

theorem heredocToken_cuts (start : List Char) (hstart : start ≠ []) (label : String) (bare : Bool)
    (opened : List OpenTemplate) (cs : List Char) :
    (heredocToken start label bare opened cs).Cuts (start ++ cs) := by
  unfold heredocToken
  split_ifs
  · split
    · rename_i hscan
      exact ⟨⟨by simp [scanNowdoc_append hscan], by simp [hstart]⟩, nofun⟩
    · exact ⟨⟨rfl, hstart⟩, nofun⟩
  · exact templateLexeme_cuts _ (by simp) (by simp) start hstart _ _

/-- A document begins with three signs, and is cut off with them. -/
theorem heredocLexeme?_cuts {opened : List OpenTemplate} {cs : List Char} {lexeme : Lexeme}
    (h : heredocLexeme? opened cs = some lexeme) : lexeme.Cuts ('<' :: '<' :: '<' :: cs) := by
  obtain ⟨⟨start, label, bare, rest⟩, hstart, rfl⟩ := Option.map_eq_some_iff.1 h
  rw [← scanHeredocStart_append hstart]
  exact heredocToken_cuts ('<' :: '<' :: '<' :: start) (by simp) label bare opened rest

/-- A symbol is a token of its own, or a brace that returns to the text around it. -/
theorem symbolToken_cases (opened : List OpenTemplate) (s : String) :
    (∃ opened', opened'.map OpenTemplate.quote = opened.map OpenTemplate.quote ∧
      ∀ rest, symbolToken opened s rest = ⟨.symbol, s.toList, opened', rest⟩) ∨
    ∃ quote more, s = "\x7d" ∧ opened = ⟨quote, 0⟩ :: more ∧
      ∀ rest, symbolToken opened s rest =
        templateLexeme quote .templateTail .templateMiddle ['\x7d'] more rest := by
  by_cases hclose : s = "\x7d"
  · subst hclose
    match opened with
    | [] => exact .inl ⟨[], rfl, fun _ => rfl⟩
    | ⟨quote, 0⟩ :: more => exact .inr ⟨quote, more, rfl, rfl, fun _ => rfl⟩
    | ⟨quote, n + 1⟩ :: more => exact .inl ⟨⟨quote, n⟩ :: more, rfl, fun _ => rfl⟩
  · by_cases hopen : s = "\x7b"
    · subst hopen
      match opened with
      | [] => exact .inl ⟨[], rfl, fun _ => rfl⟩
      | ⟨quote, n⟩ :: more => exact .inl ⟨⟨quote, n + 1⟩ :: more, rfl, fun _ => rfl⟩
    · exact .inl ⟨opened, rfl, fun _ => by simp [symbolToken, hclose, hopen]⟩

/-- A symbol, or else a single character, is cut off the front. -/
theorem symbolLexeme_cuts (opened : List OpenTemplate) {cs : List Char} (h : cs ≠ []) :
    (symbolLexeme opened cs).Cuts cs := by
  unfold symbolLexeme
  split
  · exact ⟨⟨List.take_append_drop 1 cs, by simpa using h⟩, nofun⟩
  · rename_i s rest hscan
    have hcuts := scanSymbol?_cuts hscan
    rcases symbolToken_cases opened s with ⟨opened', -, heq⟩ | ⟨quote, more, rfl, -, heq⟩
    · rw [heq]
      exact ⟨hcuts, nofun⟩
    · rw [heq, ← hcuts.append_eq]
      exact templateLexeme_cuts _ (by simp) (by simp) _ hcuts.ne_nil _ _

/-- Whatever kind a token is of, its text is cut off the front. -/
theorem scanToken_cuts (opened : List OpenTemplate) {cs : List Char} (hne : cs ≠ []) :
    (scanToken opened cs).Cuts cs := by
  unfold scanToken
  -- One case for each way of scanning; a symbol is what is left over.
  split
  · exact quotedLexeme_cuts ['\''] (by simp) _ _
  · exact templateLexeme_cuts _ (by simp) (by simp) ['"'] (by simp) _ _
  · exact templateLexeme_cuts _ (by simp) (by simp) ['\x60'] (by simp) _ _
  · rename_i rest
    cases h : heredocLexeme? opened rest with
    | none => exact symbolLexeme_cuts opened hne
    | some lexeme => exact heredocLexeme?_cuts h
  · rename_i c d rest _ _ _ _
    split_ifs with _ _ _ _ hnumber
    · exact quotedLexeme_cuts [c, d] (by simp) _ _
    · exact templateLexeme_cuts _ (by simp) (by simp) [c, d] (by simp) _ _
    · exact ⟨⟨by simp [List.takeWhile_append_dropWhile], by simp⟩, nofun⟩
    · exact ⟨⟨by simp [List.takeWhile_append_dropWhile], by simp⟩, nofun⟩
    · exact ⟨scanNumber_cuts hnumber, nofun⟩
    · exact symbolLexeme_cuts opened hne
  · split_ifs
    · exact ⟨⟨rfl, by simp⟩, nofun⟩
    · exact ⟨⟨rfl, by simp⟩, nofun⟩
    · exact symbolLexeme_cuts opened hne
  · exact absurd rfl hne

/-! ## Fuel -/

/-- More fuel than there are characters makes no difference. -/
theorem scanLead_congr : ∀ (n m : Nat) (cs : List Char), cs.length ≤ n → cs.length ≤ m →
    scanLead n cs = scanLead m cs := by
  -- On both bounds at once; each piece of trivia shortens the text.
  intro n
  induction n with
  | zero =>
    intro m cs hn _
    rw [List.eq_nil_of_length_eq_zero (Nat.le_zero.1 hn)]
    cases m <;> rfl
  | succ n ih =>
    intro m cs hn hm
    cases m with
    | zero =>
      rw [List.eq_nil_of_length_eq_zero (Nat.le_zero.1 hm)]
      rfl
    | succ m =>
      unfold scanLead
      cases h : scanTrivia cs with
      | none => rfl
      | some found =>
        have hlt := (scanTrivia_cuts (h : scanTrivia cs = some (found.1, found.2))).length_lt
        dsimp only
        rw [ih m found.2 (by omega) (by omega)]

/-- What stands in front of the first token of the text, and the text from there on. -/
def leadOf (cs : List Char) : List Trivia × List Char := scanLead cs.length cs

/-- Nothing is in front of a token that comes at once. -/
theorem leadOf_of_none {cs : List Char} (h : scanTrivia cs = none) : leadOf cs = ([], cs) := by
  rw [leadOf]
  cases cs with
  | nil => rfl
  | cons c cs => rw [List.length_cons, scanLead, h]

/-- A piece between tokens is in front of all that comes behind it. -/
theorem leadOf_of_some {cs rest : List Char} {trivia : Trivia}
    (h : scanTrivia cs = some (trivia, rest)) :
    leadOf cs = (trivia :: (leadOf rest).1, (leadOf rest).2) := by
  have hlt := (scanTrivia_cuts h).length_lt
  obtain ⟨n, hn⟩ : ∃ n, cs.length = n + 1 := ⟨cs.length - 1, by omega⟩
  rw [leadOf, hn, scanLead, h]
  dsimp only
  rw [leadOf, scanLead_congr n rest.length rest (by omega) (Nat.le_refl _)]

/-- What is in front of a token and what begins with the token make up the text. -/
theorem leadOf_append (cs : List Char) :
    (leadOf cs).1.flatMap (fun t => t.text.toList) ++ (leadOf cs).2 = cs := scanLead_append _ _

/-- What begins with the token is no longer than the text. -/
theorem length_leadOf_le (cs : List Char) : (leadOf cs).2.length ≤ cs.length := by
  have h := congrArg List.length (leadOf_append cs)
  rw [List.length_append] at h
  omega

/-- The first token of the text without what stands in front of it. -/
def lexemeOf (opened : List OpenTemplate) (cs : List Char) : Lexeme := scanToken opened (leadOf cs).2

/-- The first token of the text. -/
def firstOf (opened : List OpenTemplate) (line : Nat) (cs : List Char) : Token :=
  { lead := (leadOf cs).1, kind := (lexemeOf opened cs).kind
    text := .ofList (lexemeOf opened cs).text
    line := line + Token.lineFeeds (String.join ((leadOf cs).1.map Trivia.text)) }

/-- No token follows one of this kind. -/
def TokenKind.isLast (kind : TokenKind) : Bool := kind == .stop || kind == .broken

/-- The tokens of a source file end with two kinds of token. -/
theorem TokenKind.isLast_eq_true {kind : TokenKind} :
    kind.isLast = true ↔ kind = .stop ∨ kind = .broken := by
  rw [isLast, Bool.or_eq_true, beq_iff_eq, beq_iff_eq]

/-- All other kinds go on. -/
theorem TokenKind.isLast_eq_false {kind : TokenKind} :
    kind.isLast = false ↔ kind ≠ .stop ∧ kind ≠ .broken := by
  rw [← Bool.not_eq_true, isLast_eq_true, not_or]

/-- Where nothing but trivia is left, the end comes next. -/
theorem lexemeOf_of_nil {opened : List OpenTemplate} {cs : List Char} (h : (leadOf cs).2 = []) :
    lexemeOf opened cs = ⟨.stop, [], opened, []⟩ := by
  rw [lexemeOf, h]
  rfl

/-- Only there does the end come. -/
theorem kind_lexemeOf_eq_stop {opened : List OpenTemplate} {cs : List Char} :
    (lexemeOf opened cs).kind = .stop ↔ (leadOf cs).2 = [] := by
  constructor
  · intro h
    by_contra hne
    exact (scanToken_cuts opened hne).kind_ne_stop h
  · intro h
    rw [lexemeOf_of_nil h]

/-- Every other token is cut off the front. -/
theorem lexemeOf_cuts {opened : List OpenTemplate} {cs : List Char}
    (h : (lexemeOf opened cs).kind ≠ .stop) : (lexemeOf opened cs).Cuts (leadOf cs).2 :=
  scanToken_cuts opened fun hnil => h (kind_lexemeOf_eq_stop.2 hnil)

/-- So what is left behind a token is shorter. -/
theorem length_rest_lexemeOf {opened : List OpenTemplate} {cs : List Char}
    (h : (lexemeOf opened cs).kind ≠ .stop) : (lexemeOf opened cs).rest.length < cs.length :=
  Nat.lt_of_lt_of_le (lexemeOf_cuts h).length_lt (length_leadOf_le cs)

/-- One round reads a token and goes on behind it, unless it is the last one. -/
theorem tokensFrom_succ {n : Nat} {opened : List OpenTemplate} {line : Nat} {cs : List Char}
    (hn : cs.length ≤ n) :
    tokensFrom (n + 1) opened line cs =
      if (lexemeOf opened cs).kind.isLast then [firstOf opened line cs]
      else firstOf opened line cs ::
        tokensFrom n (lexemeOf opened cs).opened (firstOf opened line cs).lastLine
          (lexemeOf opened cs).rest := by
  rw [tokensFrom, scanLead_congr (n + 1) cs.length cs (by omega) (Nat.le_refl _)]
  simp only [firstOf, lexemeOf, leadOf]
  split
  · next hstop => simp [hstop, TokenKind.isLast]
  · next hbroken => simp [hbroken, TokenKind.isLast]
  · next hstop hbroken =>
    exact (if_neg fun hlast => (TokenKind.isLast_eq_true.1 hlast).elim hstop hbroken).symm

/-- More fuel than there are characters makes no difference here either. -/
theorem tokensFrom_congr : ∀ (n m : Nat) (opened : List OpenTemplate) (line : Nat) (cs : List Char),
    cs.length < n → cs.length < m → tokensFrom n opened line cs = tokensFrom m opened line cs := by
  intro n
  induction n with
  | zero =>
    intro m _ _ _ hn
    exact absurd hn (Nat.not_lt_zero _)
  | succ n ih =>
    intro m opened line cs hn hm
    obtain ⟨m, rfl⟩ : ∃ k, m = k + 1 := ⟨m - 1, by omega⟩
    rw [tokensFrom_succ (by omega), tokensFrom_succ (by omega)]
    by_cases h : (lexemeOf opened cs).kind.isLast
    · rw [if_pos h, if_pos h]
    · have hstop : (lexemeOf opened cs).kind ≠ .stop := fun hstop => h (by rw [hstop]; rfl)
      have hlt := length_rest_lexemeOf hstop
      rw [if_neg h, if_neg h, ih m _ _ _ (by omega) (by omega)]

/-- The tokens of the text, with the texts with expressions that are open in front of it. -/
def tokensOf (opened : List OpenTemplate) (line : Nat) (cs : List Char) : List Token :=
  tokensFrom (cs.length + 1) opened line cs

/-- A last token is the only one. -/
theorem tokensOf_of_isLast {opened : List OpenTemplate} {line : Nat} {cs : List Char}
    (h : (lexemeOf opened cs).kind.isLast) : tokensOf opened line cs = [firstOf opened line cs] := by
  rw [tokensOf, tokensFrom_succ (Nat.le_refl _), if_pos h]

/-- Any other token is followed by those of the rest. -/
theorem tokensOf_of_more {opened : List OpenTemplate} {line : Nat} {cs : List Char}
    (h : (lexemeOf opened cs).kind.isLast = false) :
    tokensOf opened line cs = firstOf opened line cs ::
      tokensOf (lexemeOf opened cs).opened (firstOf opened line cs).lastLine
        (lexemeOf opened cs).rest := by
  have hstop := (TokenKind.isLast_eq_false.1 h).1
  have hlt := length_rest_lexemeOf hstop
  rw [tokensOf, tokensFrom_succ (Nat.le_refl _), h, if_neg Bool.false_ne_true, tokensOf,
    tokensFrom_congr cs.length _ _ _ _ hlt (Nat.lt_succ_self _)]

/-- There is always a first token. -/
theorem exists_tokensOf (opened : List OpenTemplate) (line : Nat) (cs : List Char) :
    ∃ rest, tokensOf opened line cs = firstOf opened line cs :: rest := by
  cases h : (lexemeOf opened cs).kind.isLast with
  | true => exact ⟨_, tokensOf_of_isLast h⟩
  | false => exact ⟨_, tokensOf_of_more h⟩

/-- What holds of every text where it holds of the text behind its first token. -/
theorem tokensOf_induction {P : List OpenTemplate → List Char → Prop}
    (last : ∀ opened cs, (lexemeOf opened cs).kind.isLast → P opened cs)
    (more : ∀ opened cs, (lexemeOf opened cs).kind.isLast = false →
      P (lexemeOf opened cs).opened (lexemeOf opened cs).rest → P opened cs)
    (opened : List OpenTemplate) (cs : List Char) : P opened cs := by
  induction hn : cs.length using Nat.strong_induction_on generalizing opened cs with
  | _ n ih =>
    cases h : (lexemeOf opened cs).kind.isLast with
    | true => exact last opened cs h
    | false =>
      have hstop := (TokenKind.isLast_eq_false.1 h).1
      exact more opened cs h (ih _ (hn ▸ length_rest_lexemeOf hstop) _ _ rfl)

/-- The text of a token and of what stands in front of it. -/
def Token.spelled (t : Token) : List Char :=
  t.lead.flatMap (fun t => t.text.toList) ++ t.text.toList

/-- The tokens of the text, if none is broken, spell it. -/
theorem tokensOf_spelled (opened : List OpenTemplate) (line : Nat) (cs : List Char)
    (h : ∀ t ∈ tokensOf opened line cs, t.kind ≠ .broken) :
    (tokensOf opened line cs).flatMap Token.spelled = cs := by
  induction opened, cs using tokensOf_induction generalizing line with
  | last opened cs hlast =>
    rw [tokensOf_of_isLast hlast] at h ⊢
    have hbroken : (lexemeOf opened cs).kind ≠ .broken := h _ (List.mem_singleton_self _)
    have hnil : (leadOf cs).2 = [] :=
      kind_lexemeOf_eq_stop.1 ((TokenKind.isLast_eq_true.1 hlast).resolve_right hbroken)
    have hlead := leadOf_append cs
    rw [hnil, List.append_nil] at hlead
    rw [List.flatMap_singleton, Token.spelled, firstOf, lexemeOf_of_nil hnil, String.toList_ofList,
      List.append_nil, hlead]
  | more opened cs hmore ih =>
    rw [tokensOf_of_more hmore] at h ⊢
    rw [List.flatMap_cons, ih _ fun t ht => h t (List.mem_cons_of_mem _ ht)]
    have hstop := (TokenKind.isLast_eq_false.1 hmore).1
    rw [Token.spelled, firstOf, String.toList_ofList, List.append_assoc, (lexemeOf_cuts hstop).append_eq,
      leadOf_append]

end ApiCatalog.Php
