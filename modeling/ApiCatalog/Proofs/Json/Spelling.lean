import ApiCatalog.Json.Decode
import ApiCatalog.Proofs.Json.Text
import Mathlib.Data.List.TakeWhile
import Mathlib.Tactic.IntervalCases

/-!
# Spellings of lists of texts

The grammar of arrays of strings, apart from the reader: a character is spelled as itself, by an
escape or by a pair of numeric escapes, and blanks may stand around every item. The reader takes
code units off a string before it pairs surrogates, so what it reads is related to the grammar unit
by unit first. It reads a text as a list of texts just if the text spells that list
(`read?_eq_texts_iff`).
-/

namespace ApiCatalog.Json

variable {c : Char} {n fuel : Nat} {u v cs rest gap : List Char} {units : List Nat}
  {s : String} {items : List String}

/-! ## The grammar -/

/-- `d` is the hexadecimal digit of value `n`, in either case. -/
def IsHexDigit (d : Char) (n : Nat) : Prop :=
  "0123456789abcdef".toList[n]? = some d ∨ "0123456789ABCDEF".toList[n]? = some d

/-- The letters of the short escapes with the characters that they stand for. -/
def shortEscapes : List (Char × Char) :=
  [('"', '"'), ('\\', '\\'), ('/', '/'), ('b', '\x08'), ('f', '\x0c'), ('n', '\n'), ('r', '\r'),
    ('t', '\t')]

/-- `u` stands for one code unit in a string. -/
inductive SpellsUnit : List Char → Nat → Prop where
  | plain {c : Char} (hc : 0x20 ≤ c.toNat) (hquote : c ≠ '"') (hslash : c ≠ '\\') :
      SpellsUnit [c] c.toNat
  | short {e c : Char} (he : (e, c) ∈ shortEscapes) : SpellsUnit ['\\', e] c.toNat
  | numeric {d₁ d₂ d₃ d₄ : Char} {n₁ n₂ n₃ n₄ : Nat} (h₁ : IsHexDigit d₁ n₁)
      (h₂ : IsHexDigit d₂ n₂) (h₃ : IsHexDigit d₃ n₃) (h₄ : IsHexDigit d₄ n₄) :
      SpellsUnit ['\\', 'u', d₁, d₂, d₃, d₄] (n₁ * 0x1000 + n₂ * 0x100 + n₃ * 0x10 + n₄)

/-- `u` stands for one character in a string. -/
inductive SpellsChar : List Char → Char → Prop where
  | unit {u : List Char} {c : Char} (hu : SpellsUnit u c.toNat) : SpellsChar u c
  | pair {u v : List Char} {high low : Nat} {c : Char} (hu : SpellsUnit u high)
      (hv : SpellsUnit v low) (hhigh : 0xD800 ≤ high ∧ high < 0xDC00)
      (hlow : 0xDC00 ≤ low ∧ low < 0xE000)
      (hc : c.toNat = 0x10000 + (high - 0xD800) * 0x400 + (low - 0xDC00)) : SpellsChar (u ++ v) c

/-- The text is made of pieces that stand for the items of a list, in order. -/
inductive SpellsAll {α : Type} (spells : List Char → α → Prop) : List Char → List α → Prop where
  | nil : SpellsAll spells [] []
  | cons {u v : List Char} {x : α} {xs : List α} (hu : spells u x) (hv : SpellsAll spells v xs) :
      SpellsAll spells (u ++ v) (x :: xs)

/-- `u` is a string in quotes that denotes `s`. -/
def SpellsText (u : List Char) (s : String) : Prop :=
  ∃ v, SpellsAll SpellsChar v s.toList ∧ u = '"' :: (v ++ ['"'])

/-- There are only blanks, and no others than the four of the grammar. -/
def IsGapText (gap : List Char) : Prop := ∀ c ∈ gap, c = ' ' ∨ c = '\t' ∨ c = '\n' ∨ c = '\r'

/-- `u` is one string or more with commas between them and blanks around them. -/
inductive SpellsItems : List Char → List String → Prop where
  | last {before u after : List Char} {s : String} (hbefore : IsGapText before)
      (hu : SpellsText u s) (hafter : IsGapText after) : SpellsItems (before ++ u ++ after) [s]
  | more {before u after rest : List Char} {s : String} {items : List String}
      (hbefore : IsGapText before) (hu : SpellsText u s) (hafter : IsGapText after)
      (hrest : SpellsItems rest items) :
      SpellsItems (before ++ u ++ after ++ ',' :: rest) (s :: items)

/-- The text is a JSON array of strings that denote the items. -/
def SpellsTexts (cs : List Char) (items : List String) : Prop :=
  ∃ before body after, IsGapText before ∧ IsGapText after ∧
    cs = before ++ '[' :: (body ++ ']' :: after) ∧
    (IsGapText body ∧ items = [] ∨ SpellsItems body items)

/-! ## Digits and units -/

instance {d : Char} : Decidable (IsHexDigit d n) := inferInstanceAs (Decidable (_ ∨ _))

/-- Hexadecimal digits are among the first characters. -/
theorem lt_of_hexDigit? {d : Char} (h : hexDigit? d = some n) : d.toNat < 0x80 := by
  have hle : ∀ {e : Char}, d ≤ e → e.toNat < 0x80 → d.toNat < 0x80 :=
    fun h he => Nat.lt_of_le_of_lt h he
  unfold hexDigit? at h
  simp only [Char.isDigit, Bool.and_eq_true, decide_eq_true_eq] at h
  split at h
  · next hd => exact hle (e := '9') hd.2 (by decide)
  split at h
  · next hd => exact hle hd.2 (by decide)
  split at h
  · next hd => exact hle hd.2 (by decide)
  · cases h

/-- The value of a digit is that of the grammar. -/
theorem hexDigit?_eq_some_iff {d : Char} : hexDigit? d = some n ↔ IsHexDigit d n := by
  constructor
  · intro h
    have hascii : ∀ k < 0x80, ∀ n ∈ hexDigit? (Char.ofNat k), IsHexDigit (Char.ofNat k) n := by
      decide +kernel
    have hd := hascii d.toNat (lt_of_hexDigit? h) n
    rw [Char.ofNat_toNat] at hd
    exact hd h
  · intro h
    have hn : n < 16 := by
      rcases h with h | h <;> exact (List.getElem?_eq_some_iff.1 h).1
    unfold IsHexDigit at h
    interval_cases n <;> rcases h with h | h <;> cases h <;> rfl

theorem IsHexDigit.lt {d : Char} (h : IsHexDigit d n) : n < 16 := by
  rcases h with h | h <;> exact (List.getElem?_eq_some_iff.1 h).1

/-- Four digits spell a unit. -/
theorem hexUnit?_eq_some_iff {d₁ d₂ d₃ d₄ : Char} : hexUnit? d₁ d₂ d₃ d₄ = some n ↔
    ∃ n₁ n₂ n₃ n₄, IsHexDigit d₁ n₁ ∧ IsHexDigit d₂ n₂ ∧ IsHexDigit d₃ n₃ ∧ IsHexDigit d₄ n₄ ∧
      n = n₁ * 0x1000 + n₂ * 0x100 + n₃ * 0x10 + n₄ := by
  simp only [← hexDigit?_eq_some_iff, hexUnit?, Option.bind_eq_bind, Option.bind_eq_some_iff,
    Option.pure_def, Option.some.injEq]
  constructor
  · rintro ⟨n₁, h₁, n₂, h₂, n₃, h₃, n₄, h₄, rfl⟩
    exact ⟨n₁, n₂, n₃, n₄, h₁, h₂, h₃, h₄, by omega⟩
  · rintro ⟨n₁, n₂, n₃, n₄, h₁, h₂, h₃, h₄, rfl⟩
    exact ⟨n₁, h₁, n₂, h₂, n₃, h₃, n₄, h₄, by omega⟩

/-- Short escapes are those of the table. -/
theorem shortEscape?_eq_some_iff {e : Char} : shortEscape? e = some c ↔ (e, c) ∈ shortEscapes := by
  constructor
  · intro h
    unfold shortEscape? at h
    split at h <;> cases h <;> simp [shortEscapes]
  · intro h
    simp only [shortEscapes, List.mem_cons, Prod.mk.injEq, List.not_mem_nil, or_false] at h
    rcases h with ⟨rfl, rfl⟩ | ⟨rfl, rfl⟩ | ⟨rfl, rfl⟩ | ⟨rfl, rfl⟩ | ⟨rfl, rfl⟩ | ⟨rfl, rfl⟩ |
      ⟨rfl, rfl⟩ | ⟨rfl, rfl⟩ <;> rfl

/-! ## Strings, unit by unit -/

/-- A spelled unit is read, and what is behind it. -/
theorem readUnits_spelled (hu : SpellsUnit u n) (cs : List Char) :
    readUnits (u ++ cs) = (readUnits cs).map fun p => (n :: p.1, p.2) := by
  cases hu with
  | plain hc hquote hslash => exact readUnits_plain hquote hslash hc
  | short he =>
    refine readUnits_shortEscape ?_ (shortEscape?_eq_some_iff.2 he)
    rintro rfl
    exact absurd he (by simp [shortEscapes])
  | numeric h₁ h₂ h₃ h₄ =>
    have hunit := hexUnit?_eq_some_iff.2 ⟨_, _, _, _, h₁, h₂, h₃, h₄, rfl⟩
    show readUnits ('\\' :: 'u' :: _ :: _ :: _ :: _ :: cs) = _
    rw [readUnits, hunit]
    cases readUnits cs <;> rfl

/-- The units behind an opening quote are those that the text up to the closing quote spells. -/
theorem readUnits_eq_some_iff :
    readUnits cs = some (units, rest) ↔
      ∃ u, SpellsAll SpellsUnit u units ∧ cs = u ++ '"' :: rest := by
  constructor
  · intro h
    -- One case for each way in which a unit is taken off.
    fun_induction readUnits cs generalizing units with
    | case1 => cases h
    | case2 rest' =>
      cases h
      exact ⟨[], .nil, rfl⟩
    | case3 a b c d rest' ih =>
      simp only [Option.bind_eq_bind, Option.bind_eq_some_iff, Option.pure_def] at h
      obtain ⟨n, hn, p, hp, h⟩ := h
      cases h
      obtain ⟨n₁, n₂, n₃, n₄, h₁, h₂, h₃, h₄, rfl⟩ := hexUnit?_eq_some_iff.1 hn
      obtain ⟨v, hv, rfl⟩ := ih hp
      exact ⟨_, .cons (.numeric h₁ h₂ h₃ h₄) hv, rfl⟩
    | case4 e rest' hu ih =>
      simp only [Option.bind_eq_bind, Option.bind_eq_some_iff, Option.pure_def] at h
      obtain ⟨c, hc, p, hp, h⟩ := h
      cases h
      obtain ⟨v, hv, rfl⟩ := ih hp
      exact ⟨_, .cons (.short (shortEscape?_eq_some_iff.1 hc)) hv, rfl⟩
    | case5 => cases h
    | case6 c rest' hquote _ _ hplain ih =>
      simp only [Option.bind_eq_bind, Option.bind_eq_some_iff, Option.pure_def] at h
      obtain ⟨p, hp, h⟩ := h
      cases h
      obtain ⟨v, hv, rfl⟩ := ih hp
      simp only [Bool.or_eq_true, decide_eq_true_eq, beq_iff_eq, not_or, Nat.not_lt] at hplain
      exact ⟨_, .cons (.plain hplain.1 hquote hplain.2) hv, rfl⟩
  · rintro ⟨u, hu, rfl⟩
    induction hu with
    | nil => rfl
    | cons hu hv ih => rw [List.append_assoc, readUnits_spelled hu, ih, Option.map_some]

/-! ## Strings, character by character -/

/-- A unit is no larger than a code point. -/
theorem SpellsUnit.lt (h : SpellsUnit u n) : n < 0x110000 := by
  cases h with
  | @plain c =>
    have hvalid : c.toNat < 0xD800 ∨ 0xDFFF < c.toNat ∧ c.toNat < 0x110000 := c.valid
    omega
  | @short e c =>
    have hvalid : c.toNat < 0xD800 ∨ 0xDFFF < c.toNat ∧ c.toNat < 0x110000 := c.valid
    omega
  | numeric h₁ h₂ h₃ h₄ =>
    have hlt₁ := h₁.lt
    have hlt₂ := h₂.lt
    have hlt₃ := h₃.lt
    have hlt₄ := h₄.lt
    omega

/-- A code point that is no surrogate is that of its character. -/
theorem toNat_ofNat_of_valid (h : n < 0xD800 ∨ 0xDFFF < n ∧ n < 0x110000) :
    (Char.ofNat n).toNat = n := by
  rw [Char.ofNat, dif_pos (show n.isValidChar from h)]
  rfl

/-- The first half of a pair lies in its range. -/
theorem isHighSurrogate_iff : isHighSurrogate n = true ↔ 0xD800 ≤ n ∧ n < 0xDC00 := by
  simp [isHighSurrogate]

theorem isLowSurrogate_iff : isLowSurrogate n = true ↔ 0xDC00 ≤ n ∧ n < 0xE000 := by
  simp [isLowSurrogate]

/-- A unit that is no surrogate is a character. -/
theorem SpellsUnit.spellsChar (h : SpellsUnit u n) (hhigh : ¬ isHighSurrogate n = true)
    (hlow : ¬ isLowSurrogate n = true) : SpellsChar u (Char.ofNat n) := by
  have hlt := h.lt
  rw [isHighSurrogate_iff] at hhigh
  rw [isLowSurrogate_iff] at hlow
  refine .unit ?_
  rwa [toNat_ofNat_of_valid (by omega)]

/-- Units that come to characters spell them, pairs put together. -/
theorem spellsAll_char_of_units (hu : SpellsAll SpellsUnit u units)
    (h : charsOfUnits units = some cs) : SpellsAll SpellsChar u cs := by
  fun_induction charsOfUnits units generalizing u cs with
  | case1 =>
    cases h
    cases hu
    exact .nil
  -- Two units that are halves of one pair are one character, spelled by both spellings together.
  | case2 high low rest hhigh hlow ih =>
    obtain ⟨cs, hrest, rfl⟩ := Option.map_eq_some_iff.1 h
    obtain - | ⟨hu₁, - | ⟨hu₂, hv⟩⟩ := hu
    rw [isHighSurrogate_iff] at hhigh
    rw [isLowSurrogate_iff] at hlow
    rw [← List.append_assoc]
    refine .cons (.pair hu₁ hu₂ hhigh hlow ?_) (ih hv hrest)
    exact toNat_ofNat_of_valid (by omega)
  | case3 => cases h
  | case4 => cases h
  -- A unit that is no half is a character by itself.
  | case5 unit low rest hhigh hlow ih =>
    obtain ⟨cs, hrest, rfl⟩ := Option.map_eq_some_iff.1 h
    obtain - | ⟨hu, hv⟩ := hu
    exact .cons (hu.spellsChar hhigh hlow) (ih hv hrest)
  | case6 => cases h
  | case7 unit hhalf =>
    cases h
    obtain - | ⟨hu, hv⟩ := hu
    obtain ⟨hhigh, hlow⟩ := not_or.1 (mt Bool.or_eq_true_iff.2 hhalf)
    cases hv
    exact .cons (hu.spellsChar hhigh hlow) .nil

/-- Characters that are spelled come from units. -/
theorem exists_units_of_spellsAll_char (h : SpellsAll SpellsChar u cs) :
    ∃ units, SpellsAll SpellsUnit u units ∧ charsOfUnits units = some cs := by
  induction h with
  | nil => exact ⟨[], .nil, rfl⟩
  | @cons u v c cs hu hv ih =>
    obtain ⟨units, hunits, hchars⟩ := ih
    cases hu with
    | unit hu => exact ⟨_, .cons hu hunits, by rw [charsOfUnits_cons, hchars, Option.map_some]⟩
    | @pair u₁ u₂ high low _ hu₁ hu₂ hhigh hlow hc =>
      refine ⟨high :: low :: units, ?_, ?_⟩
      · rw [List.append_assoc]
        exact .cons hu₁ (.cons hu₂ hunits)
      · rw [charsOfUnits, if_pos (isHighSurrogate_iff.2 hhigh), if_pos (isLowSurrogate_iff.2 hlow),
          hchars, Option.map_some, ← hc, Char.ofNat_toNat]

/-- A string that denotes a text is read as that text. -/
theorem readString_eq_some_iff : readString cs = some (some s, rest) ↔
    ∃ u, SpellsAll SpellsChar u s.toList ∧ cs = u ++ '"' :: rest := by
  simp only [readString, Option.bind_eq_bind, Option.bind_eq_some_iff, Option.pure_def,
    Option.some.injEq, Prod.mk.injEq, Option.map_eq_some_iff]
  constructor
  · rintro ⟨⟨units, rest'⟩, hunits, ⟨chars, hchars, rfl⟩, rfl⟩
    obtain ⟨u, hu, rfl⟩ := readUnits_eq_some_iff.1 hunits
    refine ⟨u, ?_, rfl⟩
    rw [String.toList_ofList]
    exact spellsAll_char_of_units hu hchars
  · rintro ⟨u, hu, rfl⟩
    obtain ⟨units, hunits, hchars⟩ := exists_units_of_spellsAll_char hu
    exact ⟨_, readUnits_eq_some_iff.2 ⟨u, hunits, rfl⟩, ⟨_, hchars, String.ofList_toList⟩, rfl⟩

/-! ## Blanks -/

/-- No blanks are blanks. -/
theorem isGapText_nil : IsGapText [] := fun c hc => by cases hc

/-- Whether a text is blank can be tested. -/
theorem isGapText_iff : IsGapText gap ↔ ∀ c ∈ gap, isGap c = true := by
  simp [IsGapText, isGap, or_assoc]

/-- Blanks in front are skipped. -/
theorem skipGaps_append (hgap : IsGapText gap) (cs : List Char) :
    skipGaps (gap ++ cs) = skipGaps cs :=
  List.dropWhile_append_of_pos (isGapText_iff.1 hgap)

/-- What is skipped is blanks. -/
theorem exists_skipGaps (cs : List Char) : ∃ gap, IsGapText gap ∧ cs = gap ++ skipGaps cs :=
  ⟨cs.takeWhile isGap, isGapText_iff.2 fun _ hc => List.mem_takeWhile_imp hc,
    List.takeWhile_append_dropWhile.symm⟩

/-- Nothing else is. -/
theorem skipGaps_cons (hc : isGap c = false) (cs : List Char) : skipGaps (c :: cs) = c :: cs :=
  List.dropWhile_cons_of_neg (Bool.eq_false_iff.1 hc)

/-- Of blanks nothing is left. -/
theorem isGapText_iff_skipGaps : IsGapText gap ↔ skipGaps gap = [] := by
  rw [isGapText_iff, skipGaps, List.dropWhile_eq_nil_iff]

/-! ## Values -/

/-- Where a text is read, it stands in quotes. -/
theorem readValue_eq_text (h : readValue (fuel + 1) cs = some (.text s, rest)) :
    ∃ behind, skipGaps cs = '"' :: behind ∧ readString behind = some (some s, rest) := by
  rw [readValue] at h
  -- No other first character begins a text.
  split at h
  case h_4 behind hcs =>
    obtain ⟨⟨t, rest'⟩, hstring, h⟩ := Option.bind_eq_some_iff.1 h
    refine ⟨behind, hcs, ?_⟩
    cases t with
    | none => cases h
    | some t =>
      cases h
      exact hstring
  case h_5 =>
    split at h
    · cases h
    · obtain ⟨p, -, h⟩ := Option.bind_eq_some_iff.1 h
      cases h
  case h_6 =>
    split at h
    · cases h
    · obtain ⟨p, -, h⟩ := Option.bind_eq_some_iff.1 h
      cases h
  case h_7 | h_8 =>
    obtain ⟨p, -, h⟩ := Option.bind_eq_some_iff.1 h
    cases h
  all_goals cases h

/-- Where an array is read, it stands in brackets. -/
theorem readValue_eq_array_iff {values : List Json} :
    readValue (fuel + 1) cs = some (.array values, rest) ↔ ∃ behind, skipGaps cs = '[' :: behind ∧
      (skipGaps behind = ']' :: rest ∧ values = [] ∨
        (∀ rest', skipGaps behind ≠ ']' :: rest') ∧
          readItems fuel (skipGaps behind) = some (values, rest)) := by
  rw [readValue]
  -- Only the branch of the bracket gives an array; the others give a value of another kind or none.
  constructor
  · intro h
    split at h
    case h_4 =>
      obtain ⟨⟨t, rest'⟩, -, h⟩ := Option.bind_eq_some_iff.1 h
      cases t <;> cases h
    case h_5 behind hcs =>
      refine ⟨behind, hcs, ?_⟩
      split at h
      · next hclose =>
        cases h
        exact .inl ⟨hclose, rfl⟩
      · next hopen =>
        obtain ⟨p, hitems, h⟩ := Option.bind_eq_some_iff.1 h
        cases h
        exact .inr ⟨hopen, hitems⟩
    case h_6 =>
      split at h
      · cases h
      · obtain ⟨p, -, h⟩ := Option.bind_eq_some_iff.1 h
        cases h
    case h_7 | h_8 =>
      obtain ⟨p, -, h⟩ := Option.bind_eq_some_iff.1 h
      cases h
    all_goals cases h
  · rintro ⟨behind, hcs, ⟨hclose, rfl⟩ | ⟨hopen, hitems⟩⟩
    · simp only [hcs, hclose]
    · simp only [hcs, hitems]
      rfl

/-- A text is read where one is spelled behind blanks. -/
theorem readValue_eq_text_iff : readValue (fuel + 1) cs = some (.text s, rest) ↔
    ∃ gap u, IsGapText gap ∧ SpellsText u s ∧ cs = gap ++ (u ++ rest) := by
  constructor
  · intro h
    obtain ⟨gap, hgap, hcs⟩ := exists_skipGaps cs
    obtain ⟨behind, hquote, hstring⟩ := readValue_eq_text h
    obtain ⟨u, hu, rfl⟩ := readString_eq_some_iff.1 hstring
    refine ⟨gap, _, hgap, ⟨u, hu, rfl⟩, ?_⟩
    rw [hcs, hquote]
    simp
  · rintro ⟨gap, u, hgap, ⟨v, hv, rfl⟩, rfl⟩
    have hstring := readString_eq_some_iff.2 ⟨v, hv, (rfl : v ++ '"' :: rest = _)⟩
    have hquote : skipGaps (gap ++ ('"' :: (v ++ ['"']) ++ rest)) = '"' :: (v ++ '"' :: rest) := by
      rw [skipGaps_append hgap, List.cons_append, List.append_assoc]
      rfl
    rw [readValue, hquote]
    show (readString (v ++ '"' :: rest)).bind _ = _
    rw [hstring]
    rfl

/-! ## Arrays -/

/-- Blanks in front of the items belong to the first of them. -/
theorem SpellsItems.append_gap (hgap : IsGapText gap) (h : SpellsItems u items) :
    SpellsItems (gap ++ u) items := by
  have hjoin : ∀ {before}, IsGapText before → IsGapText (gap ++ before) :=
    fun hbefore => List.forall_mem_append.2 ⟨hgap, hbefore⟩
  cases h with
  | last hbefore hu hafter =>
    simpa using SpellsItems.last (hjoin hbefore) hu hafter
  | more hbefore hu hafter hrest =>
    simpa using SpellsItems.more (hjoin hbefore) hu hafter hrest

/-- Items go on behind a comma and end with a bracket. -/
theorem readItems_succ (fuel : Nat) (cs : List Char) {value : Json} {behind : List Char}
    (h : readValue fuel cs = some (value, behind)) : readItems (fuel + 1) cs =
      match skipGaps behind with
      | ']' :: rest => some ([value], rest)
      | ',' :: rest => (readItems fuel rest).map fun p => (value :: p.1, p.2)
      | _ => none := by
  rw [readItems, h]
  show (match skipGaps behind with
    | ']' :: rest => _
    | ',' :: rest => _
    | _ => _) = _
  split
  · rfl
  · next rest _ => cases readItems fuel rest <;> rfl
  · rfl

/-- What is read as the items of an array, all of them texts, spells these. -/
theorem spellsItems_of_readItems (h : readItems fuel cs = some (items.map .text, rest)) :
    ∃ body, SpellsItems body items ∧ cs = body ++ ']' :: rest := by
  induction fuel generalizing cs items with
  | zero => cases h
  | succ fuel ih =>
    have hread : ∃ value behind, readValue fuel cs = some (value, behind) := by
      rw [readItems] at h
      obtain ⟨p, hp, -⟩ := Option.bind_eq_some_iff.1 h
      exact ⟨p.1, p.2, hp⟩
    obtain ⟨value, behind, hvalue⟩ := hread
    rw [readItems_succ fuel cs hvalue] at h
    obtain ⟨after, hafter, hbehind⟩ := exists_skipGaps behind
    -- The first of the items is the value that was read, so it is a text.
    have hfirst : ∀ {s : String}, value = .text s →
        ∃ before u, IsGapText before ∧ SpellsText u s ∧ cs = before ++ (u ++ behind) := by
      rintro s rfl
      obtain ⟨fuel, rfl⟩ : ∃ n, fuel = n + 1 := by
        cases fuel with
        | zero => cases hvalue
        | succ n => exact ⟨n, rfl⟩
      exact readValue_eq_text_iff.1 hvalue
    split at h
    · next rest' hclose =>
      obtain ⟨hitems, rfl⟩ := Prod.mk.inj (Option.some.inj h)
      obtain ⟨s, rfl, hs⟩ := List.map_eq_singleton_iff.1 hitems.symm
      obtain ⟨before, u, hbefore, hu, rfl⟩ := hfirst hs.symm
      refine ⟨_, .last hbefore hu hafter, ?_⟩
      rw [hbehind, hclose]
      simp
    · next rest' hcomma =>
      obtain ⟨⟨values, rest''⟩, hmore, h⟩ := Option.map_eq_some_iff.1 h
      obtain ⟨hitems, rfl⟩ := Prod.mk.inj h
      obtain ⟨s, items', rfl, hs, rfl⟩ := List.map_eq_cons_iff.1 hitems.symm
      obtain ⟨before, u, hbefore, hu, rfl⟩ := hfirst hs.symm
      obtain ⟨body, hbody, rfl⟩ := ih hmore
      refine ⟨_, .more hbefore hu hafter hbody, ?_⟩
      rw [hbehind, hcomma]
      simp
    · cases h

/-- Items are read up to the closing bracket, given fuel for each of them. -/
theorem readItems_of_spellsItems (h : SpellsItems u items) (hfuel : items.length < fuel)
    (rest : List Char) : readItems fuel (u ++ ']' :: rest) = some (items.map .text, rest) := by
  induction h generalizing fuel with
  | @last before u after s hbefore hu hafter =>
    obtain ⟨fuel, rfl⟩ : ∃ n, fuel = n + 2 := ⟨fuel - 2, by simp at hfuel; omega⟩
    have hvalue : readValue (fuel + 1) (before ++ u ++ after ++ ']' :: rest) =
        some (.text s, after ++ ']' :: rest) :=
      readValue_eq_text_iff.2 ⟨before, u, hbefore, hu, by simp⟩
    rw [readItems_succ _ _ hvalue, skipGaps_append hafter, skipGaps_cons (by decide)]
    rfl
  | @more before u after more s items hbefore hu hafter hrest ih =>
    obtain ⟨fuel, rfl⟩ : ∃ n, fuel = n + 2 := ⟨fuel - 2, by simp at hfuel; omega⟩
    have hvalue : readValue (fuel + 1) (before ++ u ++ after ++ ',' :: more ++ ']' :: rest) =
        some (.text s, after ++ ',' :: (more ++ ']' :: rest)) :=
      readValue_eq_text_iff.2 ⟨before, u, hbefore, hu, by simp⟩
    have hmore := @ih (fuel + 1) (by rw [List.length_cons] at hfuel; omega)
    rw [readItems_succ _ _ hvalue, skipGaps_append hafter, skipGaps_cons (by decide)]
    show (readItems (fuel + 1) (more ++ ']' :: rest)).map _ = _
    rw [hmore]
    rfl

/-- Items take up at least a character each. -/
theorem SpellsItems.length_lt (h : SpellsItems u items) : items.length < u.length := by
  induction h with
  | last hbefore hu hafter =>
    obtain ⟨v, -, rfl⟩ := hu
    simp only [List.length_append, List.length_cons]
    omega
  | more hbefore hu hafter hrest ih =>
    simp only [List.length_append, List.length_cons]
    omega

/-- Behind the blanks in front of it, the first item starts with its quote. -/
theorem SpellsItems.exists_quote (h : SpellsItems u items) : ∃ gap more, IsGapText gap ∧
    u = gap ++ '"' :: more ∧ SpellsItems ('"' :: more) items := by
  cases h with
  | last hbefore hu hafter =>
    obtain ⟨v, hv, rfl⟩ := hu
    exact ⟨_, _, hbefore, by simp, .last isGapText_nil ⟨v, hv, rfl⟩ hafter⟩
  | more hbefore hu hafter hrest =>
    obtain ⟨v, hv, rfl⟩ := hu
    exact ⟨_, _, hbefore, by simp, .more isGapText_nil ⟨v, hv, rfl⟩ hafter hrest⟩

/-- What is read as a list of texts is an array that spells it. -/
theorem spells_of_readValue (h : readValue (fuel + 1) cs = some (texts items, rest)) :
    ∃ before body, IsGapText before ∧ cs = before ++ '[' :: (body ++ ']' :: rest) ∧
      (IsGapText body ∧ items = [] ∨ SpellsItems body items) := by
  obtain ⟨before, hbefore, hcs⟩ := exists_skipGaps cs
  obtain ⟨behind, hopen, hitems⟩ := readValue_eq_array_iff.1 h
  obtain ⟨gap, hgap, hbehind⟩ := exists_skipGaps behind
  rw [hopen] at hcs
  rcases hitems with ⟨hclose, hnil⟩ | ⟨-, hitems⟩
  · rw [hclose] at hbehind
    exact ⟨before, gap, hbefore, hbehind ▸ hcs, .inl ⟨hgap, List.map_eq_nil_iff.1 hnil⟩⟩
  · obtain ⟨body, hbody, hrest⟩ := spellsItems_of_readItems hitems
    refine ⟨before, gap ++ body, hbefore, ?_, .inr (hbody.append_gap hgap)⟩
    rw [hcs, hbehind, hrest, List.append_assoc]

/-- A list is read where it is spelled, with fuel for each item. -/
theorem readValue_of_spells {before body : List Char} (hbefore : IsGapText before)
    (hbody : IsGapText body ∧ items = [] ∨ SpellsItems body items) (hfuel : items.length < fuel) :
    readValue (fuel + 1) (before ++ '[' :: (body ++ ']' :: rest)) = some (texts items, rest) := by
  have hopen : skipGaps (before ++ '[' :: (body ++ ']' :: rest)) = '[' :: (body ++ ']' :: rest) := by
    rw [skipGaps_append hbefore, skipGaps_cons (by decide)]
  rcases hbody with ⟨hgap, rfl⟩ | hitems
  · have hclose : skipGaps (body ++ ']' :: rest) = ']' :: rest := by
      rw [skipGaps_append hgap, skipGaps_cons (by decide)]
    exact readValue_eq_array_iff.2 ⟨_, hopen, .inl ⟨hclose, rfl⟩⟩
  · obtain ⟨gap, more, hgap, rfl, hmore⟩ := hitems.exists_quote
    have hquote : skipGaps (gap ++ '"' :: more ++ ']' :: rest) = '"' :: more ++ ']' :: rest := by
      rw [List.append_assoc, skipGaps_append hgap, List.cons_append, skipGaps_cons (by decide)]
    have hread := readItems_of_spellsItems hmore hfuel rest
    rw [← hquote] at hread
    refine readValue_eq_array_iff.2 ⟨_, hopen, .inr ⟨fun rest' hclose => ?_, hread⟩⟩
    cases hquote.symm.trans hclose

/-- A text is read as a list of texts just if it spells that list. -/
theorem read?_eq_texts_iff : read? cs = some (texts items) ↔ SpellsTexts cs items := by
  unfold read?
  constructor
  · intro h
    split at h
    · next value rest hvalue =>
      split at h
      · next hend =>
        cases h
        obtain ⟨before, body, hbefore, hcs, hbody⟩ := spells_of_readValue hvalue
        have hafter := isGapText_iff_skipGaps.2 (List.isEmpty_iff.1 hend)
        exact ⟨before, body, rest, hbefore, hafter, hcs, hbody⟩
      · cases h
    · cases h
  · rintro ⟨before, body, after, hbefore, hafter, rfl, hbody⟩
    -- The fuel is the length of the text, and no item is spelled by nothing.
    have hlength : items.length < (before ++ '[' :: (body ++ ']' :: after)).length := by
      simp only [List.length_append, List.length_cons]
      rcases hbody with ⟨-, rfl⟩ | hitems
      · simp
      · have hshort := hitems.length_lt
        omega
    rw [readValue_of_spells hbefore hbody hlength]
    show (if (skipGaps after).isEmpty then _ else _) = _
    rw [isGapText_iff_skipGaps.1 hafter]
    rfl

end ApiCatalog.Json
