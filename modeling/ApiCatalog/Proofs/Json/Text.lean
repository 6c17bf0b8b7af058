import ApiCatalog.Json.Printer
import ApiCatalog.Json.Reader

/-!
# Strings of JSON survive

What the printer writes for a text the reader reads as that text, whatever follows the closing
quote. The printer escapes quotes, backslashes and control characters; the reader undoes it
character by character (`readUnits_escapeChar`), and no character is half of a surrogate pair, so
the units read make up the characters again (`charsOfUnits_map`).
-/

namespace ApiCatalog.Json

variable {c : Char} {cs rest : List Char}

/-! ## Escapes -/

theorem hexUnit?_hexChar : ∀ n < 0x20,
    hexUnit? '0' '0' (hexChar (n / 16)) (hexChar (n % 16)) = some n := by
  decide

/-- A short escape is read as the character that it stands for. -/
theorem readUnits_shortEscape {e : Char} (he : e ≠ 'u') (hc : shortEscape? e = some c) :
    readUnits ('\\' :: e :: cs) = (readUnits cs).map fun p => (c.toNat :: p.1, p.2) := by
  rw [readUnits, hc]
  · cases readUnits cs <;> rfl
  · intro a b c d rest hu
    exact absurd hu he

theorem readUnits_numericEscape {n : Nat} (hn : n < 0x20) :
    readUnits ('\\' :: 'u' :: '0' :: '0' :: hexChar (n / 16) :: hexChar (n % 16) :: cs) =
      (readUnits cs).map fun p => (n :: p.1, p.2) := by
  rw [readUnits, hexUnit?_hexChar n hn]
  cases readUnits cs <;> rfl

theorem readUnits_plain (hquote : c ≠ '"') (hslash : c ≠ '\\') (hc : 0x20 ≤ c.toNat) :
    readUnits (c :: cs) = (readUnits cs).map fun p => (c.toNat :: p.1, p.2) := by
  have hplain : (decide (c.toNat < 0x20) || c == '\\') = false := by
    rw [Bool.or_eq_false_iff, decide_eq_false_iff_not, beq_eq_false_iff_ne]
    exact ⟨Nat.not_lt.2 hc, hslash⟩
  rw [readUnits, if_neg (by rw [hplain]; decide)]
  · cases readUnits cs <;> rfl
  · exact hquote
  · intro a b c' d rest h
    exact absurd h hslash
  · intro e rest h
    exact absurd h hslash

/-- What the printer writes for a character is read as that character. -/
theorem readUnits_escapeChar :
    readUnits (escapeChar c ++ cs) = (readUnits cs).map fun p => (c.toNat :: p.1, p.2) := by
  unfold escapeChar
  -- Seven characters have escapes of one letter.
  iterate 7
    split
    · next h =>
      obtain rfl := beq_iff_eq.1 h
      exact readUnits_shortEscape (by decide) rfl
  split
  · next h => exact readUnits_numericEscape h
  · next hquote hslash _ _ _ _ _ hcontrol =>
    rw [beq_iff_eq] at hquote hslash
    exact readUnits_plain hquote hslash (Nat.not_lt.1 hcontrol)

/-! ## Characters and units -/

/-- A character is no half of a surrogate pair. -/
theorem not_surrogate (c : Char) :
    isHighSurrogate c.toNat = false ∧ isLowSurrogate c.toNat = false := by
  have hvalid : c.toNat < 0xD800 ∨ 0xDFFF < c.toNat ∧ c.toNat < 0x110000 := c.valid
  unfold isHighSurrogate isLowSurrogate
  rw [← Bool.not_eq_true, ← Bool.not_eq_true, Bool.and_eq_true, Bool.and_eq_true,
    decide_eq_true_iff, decide_eq_true_iff, decide_eq_true_iff, decide_eq_true_iff]
  omega

theorem charsOfUnits_cons (c : Char) (units : List Nat) :
    charsOfUnits (c.toNat :: units) = (charsOfUnits units).map (c :: ·) := by
  obtain ⟨hhigh, hlow⟩ := not_surrogate c
  cases units with
  | nil => simp [charsOfUnits, hhigh, hlow]
  | cons low rest => simp [charsOfUnits, hhigh, hlow]

theorem charsOfUnits_map (cs : List Char) : charsOfUnits (cs.map Char.toNat) = some cs := by
  induction cs with
  | nil => rfl
  | cons c cs ih => rw [List.map_cons, charsOfUnits_cons, ih, Option.map_some]

/-! ## Texts -/

theorem readUnits_flatMap_escapeChar (cs rest : List Char) :
    readUnits (cs.flatMap escapeChar ++ '"' :: rest) = some (cs.map Char.toNat, rest) := by
  induction cs with
  | nil => rw [List.flatMap_nil, List.nil_append, readUnits, List.map_nil]
  | cons c cs ih =>
    rw [List.flatMap_cons, List.append_assoc, readUnits_escapeChar, ih, Option.map_some,
      List.map_cons]

/-- A text between quotes is read as the text, whatever follows. -/
theorem readString_quoted (s : String) (rest : List Char) :
    readString (s.toList.flatMap escapeChar ++ '"' :: rest) = some (some s, rest) := by
  unfold readString
  rw [readUnits_flatMap_escapeChar]
  show some ((charsOfUnits (s.toList.map Char.toNat)).map String.ofList, rest) = _
  rw [charsOfUnits_map, Option.map_some, String.ofList_toList]

/-- A text between quotes is a value of its own. -/
theorem readValue_quoted (fuel : Nat) (s : String) (rest : List Char) :
    readValue (fuel + 1) ('"' :: (s.toList.flatMap escapeChar ++ '"' :: rest)) =
      some (.text s, rest) := by
  have hgaps : skipGaps ('"' :: (s.toList.flatMap escapeChar ++ '"' :: rest)) =
      '"' :: (s.toList.flatMap escapeChar ++ '"' :: rest) := rfl
  rw [readValue, hgaps]
  show (readString (s.toList.flatMap escapeChar ++ '"' :: rest) >>= _) = _
  rw [readString_quoted]
  rfl

end ApiCatalog.Json
