import ApiCatalog.Proofs.Json.Text

/-!
# What the pretty printer writes is read back

The reader spends a unit of fuel for every level of nesting and for every item, and each of them is
at least one character long, so a text never needs more fuel than it has characters. A number has
no end of its own: it is read to the last digit that follows, so whatever follows a value must not
go on with a number (`Ends`). In the text of a value that is always so, for a comma, a line break or
nothing follows.
-/

namespace ApiCatalog.Json

/-- A value as programs write it: numbers are natural, strings and keys denote text. -/
inductive Written : Json → Prop where
  | null : Written .null
  | bool (b : Bool) : Written (.bool b)
  | nat (n : Nat) : Written (.nat n)
  | text (s : String) : Written (.text s)
  | array {items : List Json} (h : ∀ item ∈ items, Written item) : Written (.array items)
  | object {fields : List (Option String × Json)} (hkey : ∀ field ∈ fields, field.1.isSome)
      (hvalue : ∀ field ∈ fields, Written field.2) : Written (.object fields)

/-- A number in front of the text ends there. -/
def Ends (cs : List Char) : Prop :=
  ∀ c ∈ cs.head?, c.isDigit = false ∧ c ≠ '.' ∧ c ≠ 'e' ∧ c ≠ 'E'

/-! ## Blanks between tokens -/

/-- Nothing is skipped where no blank is. -/
theorem skipGaps_of_not_gap {c : Char} (h : isGap c = false) (cs : List Char) :
    skipGaps (c :: cs) = c :: cs := by
  simp [skipGaps, h]

/-- A line break and its indentation are skipped. -/
theorem skipGaps_newLine (level : Nat) (cs : List Char) :
    skipGaps (newLine level ++ cs) = skipGaps cs := by
  unfold skipGaps newLine
  rw [List.cons_append, List.dropWhile_cons_of_pos (by decide)]
  refine List.dropWhile_append_of_pos fun c hc => ?_
  rw [List.eq_of_mem_replicate hc]
  decide

/-- So they make no difference in front of a value. -/
theorem readValue_newLine (fuel level : Nat) (cs : List Char) :
    readValue fuel (newLine level ++ cs) = readValue fuel cs := by
  cases fuel with
  | zero => rw [readValue, readValue]
  | succ fuel => rw [readValue, readValue, skipGaps_newLine]

theorem readValue_blank (fuel : Nat) (cs : List Char) :
    readValue fuel (' ' :: cs) = readValue fuel cs := by
  cases fuel with
  | zero => rw [readValue, readValue]
  | succ fuel =>
    have hgaps : skipGaps (' ' :: cs) = skipGaps cs := List.dropWhile_cons_of_pos (by decide)
    rw [readValue, readValue, hgaps]

theorem readItems_newLine (fuel level : Nat) (cs : List Char) :
    readItems fuel (newLine level ++ cs) = readItems fuel cs := by
  cases fuel with
  | zero => rw [readItems, readItems]
  | succ fuel => rw [readItems, readItems, readValue_newLine]

theorem readFields_newLine (fuel level : Nat) (cs : List Char) :
    readFields fuel (newLine level ++ cs) = readFields fuel cs := by
  cases fuel with
  | zero => rw [readFields, readFields]
  | succ fuel => rw [readFields, readFields, skipGaps_newLine]

/-! ## Numbers -/

/-- A number is written by digits. -/
theorem isDigit_of_mem_toDigits {n : Nat} {c : Char} (h : c ∈ Nat.toDigits 10 n) :
    c.isDigit = true :=
  Nat.isDigit_of_mem_toDigits (by decide) (by decide) h

/-- No zero leads the digits of a positive number. -/
theorem head_toDigits {n : Nat} (hn : 0 < n) :
    ∃ c cs, Nat.toDigits 10 n = c :: cs ∧ c ≠ '0' := by
  induction n using Nat.strongRecOn with
  | _ n ih =>
    rcases Nat.lt_or_ge n 10 with hlt | hge
    · have hdigit : ∀ m < 10, 0 < m → m.digitChar ≠ '0' := by decide
      exact ⟨_, [], Nat.toDigits_of_lt_base hlt, hdigit n hlt hn⟩
    · obtain ⟨c, cs, hcs, hc⟩ := ih (n / 10) (by omega) (by omega)
      refine ⟨c, cs ++ [(n % 10).digitChar], ?_, hc⟩
      rw [Nat.toDigits_of_base_le (by decide) hge, hcs, List.cons_append]

/-- Digits are read as far as they go. -/
theorem readDigits_append {digits rest : List Char} (hne : digits ≠ [])
    (hdigits : ∀ c ∈ digits, c.isDigit = true) (hrest : ∀ c ∈ rest.head?, c.isDigit = false) :
    readDigits (digits ++ rest) = some (digits, rest) := by
  have hstop : rest.takeWhile Char.isDigit = [] ∧ rest.dropWhile Char.isDigit = rest := by
    cases rest with
    | nil => exact ⟨rfl, rfl⟩
    | cons c cs => simp [hrest c rfl]
  unfold readDigits
  rw [List.takeWhile_append_of_pos hdigits, List.dropWhile_append_of_pos hdigits, hstop.1, hstop.2,
    List.append_nil]
  cases digits with
  | nil => exact absurd rfl hne
  | cons c cs => rfl

/-- So a number is read, as it starts with no zero but its own. -/
theorem readWhole_toDigits (n : Nat) {rest : List Char}
    (hrest : ∀ c ∈ rest.head?, c.isDigit = false) :
    readWhole (Nat.toDigits 10 n ++ rest) = some (Nat.toDigits 10 n, rest) := by
  rcases Nat.eq_zero_or_pos n with rfl | hn
  · rfl
  · obtain ⟨c, cs, hcs, hc⟩ := head_toDigits hn
    have hread := readDigits_append (Nat.toDigits_ne_nil (n := n) (b := 10))
      (fun c hc => isDigit_of_mem_toDigits hc) hrest
    rw [hcs, List.cons_append] at hread ⊢
    rw [readWhole, hread]
    intro rest' h
    exact hc (List.cons.inj h).1

/-- A natural number is read to its last digit. -/
theorem readNumeral_ofNat (n : Nat) {rest : List Char} (hrest : Ends rest) :
    readNumeral false (Nat.toDigits 10 n ++ rest) = some (Numeral.ofNat n, rest) := by
  unfold readNumeral
  rw [readWhole_toDigits n fun c hc => (hrest c hc).1]
  cases rest with
  | nil => rfl
  | cons c cs =>
    obtain ⟨-, hpoint, he, hE⟩ := hrest c rfl
    have hexponent : readExponent (c :: cs) = some (none, c :: cs) := by
      simp [readExponent, he, hE]
    simp only [Option.bind_eq_bind, Option.bind_some]
    split
    · next h => exact absurd (List.cons.inj h).1 hpoint
    · simp [hexponent, Numeral.ofNat]

/-- A digit is no other sign. -/
theorem ne_of_isDigit {c d : Char} (hc : c.isDigit = true) (hd : d.isDigit = false) : c ≠ d := by
  rintro rfl
  rw [hc] at hd
  cases hd

/-- A digit is no blank. -/
theorem isGap_of_isDigit {c : Char} (hc : c.isDigit = true) : isGap c = false := by
  simp [isGap, ne_of_isDigit hc]

/-- A digit starts a number and nothing else. -/
theorem readValue_digit {c : Char} (hc : c.isDigit = true) (fuel : Nat) (cs : List Char) :
    readValue (fuel + 1) (c :: cs) =
      (readNumeral false (c :: cs)).map fun p => (.number p.1, p.2) := by
  rw [readValue, skipGaps_of_not_gap (isGap_of_isDigit hc)]
  split
  all_goals first
    | next h => exact absurd (List.cons.inj h).1 (ne_of_isDigit hc (by decide))
    | skip
  cases readNumeral false (c :: cs) <;> rfl

/-! ## Values -/

/-- Whatever level the value is written at and whatever follows, it is read back. -/
def ReadsBack (value : Json) : Prop :=
  ∀ {level fuel : Nat} {rest : List Char}, Ends rest → (prettyAt level value).length < fuel →
    readValue fuel (prettyAt level value ++ rest) = some (value, rest)

/-- A line break ends a number. -/
theorem ends_newLine (level : Nat) (cs : List Char) : Ends (newLine level ++ cs) := by
  intro c hc
  obtain rfl : '\n' = c := by simpa [newLine] using hc
  decide

theorem ends_comma (cs : List Char) : Ends (',' :: cs) := by
  intro c hc
  obtain rfl : ',' = c := by simpa using hc
  decide

/-- The text of a value starts with neither a blank nor a closing bracket. -/
theorem head_prettyAt {value : Json} (h : Written value) (level : Nat) :
    ∃ c cs, prettyAt level value = c :: cs ∧ isGap c = false ∧ c ≠ ']' := by
  cases h with
  | null => exact ⟨_, _, rfl, by decide, by decide⟩
  | bool b => cases b <;> exact ⟨_, _, rfl, by decide, by decide⟩
  | nat n =>
    cases hdigits : Nat.toDigits 10 n with
    | nil => exact absurd hdigits Nat.toDigits_ne_nil
    | cons c cs =>
      have hc : c.isDigit = true := isDigit_of_mem_toDigits (n := n) (by rw [hdigits]; simp)
      refine ⟨c, cs, by simp [prettyAt, scalar, nat, spelled, Numeral.ofNat, hdigits], ?_, ?_⟩
      · exact isGap_of_isDigit hc
      · rintro rfl
        exact absurd hc (by decide)
  | text s => exact ⟨_, _, rfl, by decide, by decide⟩
  | @array items h => cases items <;> exact ⟨_, _, rfl, by decide, by decide⟩
  | @object fields hkey hvalue => cases fields <;> exact ⟨_, _, rfl, by decide, by decide⟩

/-- Items begin with the first one. -/
theorem prettyItems_cons (level : Nat) (item : Json) (items : List Json) :
    ∃ more, prettyItems level (item :: items) = prettyAt (level + 1) item ++ more := by
  cases items with
  | nil => exact ⟨newLine level ++ [']'], by simp [prettyItems]⟩
  | cons item' items =>
    exact ⟨',' :: newLine (level + 1) ++ prettyItems level (item' :: items), by simp [prettyItems]⟩

/-- Items are read back one by one, each with its comma or the bracket behind it. -/
theorem readItems_prettyItems {items : List Json} (hne : items ≠ [])
    (h : ∀ item ∈ items, ReadsBack item) {level fuel : Nat} (rest : List Char)
    (hfuel : (prettyItems level items).length < fuel) :
    readItems fuel (prettyItems level items ++ rest) = some (items, rest) := by
  -- On the items; each is followed by a comma, the last one by the closing bracket.
  induction items generalizing fuel with
  | nil => exact absurd rfl hne
  | cons item items ih =>
    have hitem : ReadsBack item := h item List.mem_cons_self
    obtain ⟨fuel, rfl⟩ : ∃ n, fuel = n + 1 := ⟨fuel - 1, by omega⟩
    cases items with
    | nil =>
      have htext : prettyItems level [item] ++ rest =
          prettyAt (level + 1) item ++ (newLine level ++ ']' :: rest) := by simp [prettyItems]
      -- The fuel covers the text of the items, hence that of the first one.
      have hlength : (prettyAt (level + 1) item).length < fuel := by
        simp only [prettyItems, List.length_append, List.length_singleton] at hfuel
        omega
      rw [htext, readItems, hitem (ends_newLine _ _) hlength]
      simp only [Option.bind_eq_bind, Option.bind_some]
      rw [skipGaps_newLine, skipGaps_of_not_gap (by decide)]
      rfl
    | cons item' items =>
      have htext : prettyItems level (item :: item' :: items) ++ rest =
          prettyAt (level + 1) item ++
            ',' :: (newLine (level + 1) ++ (prettyItems level (item' :: items) ++ rest)) := by
        simp [prettyItems]
      have hlength : (prettyAt (level + 1) item).length < fuel ∧
          (prettyItems level (item' :: items)).length < fuel := by
        simp only [prettyItems, List.length_append, List.length_cons] at hfuel ⊢
        omega
      have hitems := ih (List.cons_ne_nil _ _)
        (fun item hmem => h item (List.mem_cons_of_mem _ hmem)) hlength.2
      rw [htext, readItems, hitem (ends_comma _) hlength.1]
      simp only [Option.bind_eq_bind, Option.bind_some]
      -- Behind the comma the reader skips the line break and the indentation of the next item.
      rw [skipGaps_of_not_gap (by decide)]
      simp only [readItems_newLine, hitems]
      rfl

/-- Fields are read back one by one, each with its key. -/
theorem readFields_prettyFields {fields : List (Option String × Json)} (hne : fields ≠ [])
    (hkey : ∀ field ∈ fields, field.1.isSome) (h : ∀ field ∈ fields, ReadsBack field.2)
    {level fuel : Nat} (rest : List Char) (hfuel : (prettyFields level fields).length < fuel) :
    readFields fuel (prettyFields level fields ++ rest) = some (fields, rest) := by
  -- As for the items of an array, with a key in front of each value.
  induction fields generalizing fuel with
  | nil => exact absurd rfl hne
  | cons field fields ih =>
    obtain ⟨key, value⟩ := field
    obtain ⟨key, rfl⟩ := Option.isSome_iff_exists.1 (hkey _ List.mem_cons_self)
    have hvalue : ReadsBack value := h _ List.mem_cons_self
    obtain ⟨fuel, rfl⟩ : ∃ n, fuel = n + 1 := ⟨fuel - 1, by omega⟩
    cases fields with
    | nil =>
      have htext : prettyFields level [(some key, value)] ++ rest =
          '"' :: (key.toList.flatMap escapeChar ++
            '"' :: ':' :: ' ' ::
              (prettyAt (level + 1) value ++ (newLine level ++ '\x7d' :: rest))) := by
        simp [prettyFields, quotedKey, quoted]
      have hlength : (prettyAt (level + 1) value).length < fuel := by
        simp only [prettyFields, List.length_append, List.length_cons] at hfuel
        omega
      rw [htext, readFields, skipGaps_of_not_gap (by decide)]
      simp only [readString_quoted, Option.bind_eq_bind, Option.bind_some]
      rw [skipGaps_of_not_gap (by decide)]
      simp only [readValue_blank, hvalue (ends_newLine _ _) hlength, Option.bind_some]
      rw [skipGaps_newLine, skipGaps_of_not_gap (by decide)]
      rfl
    | cons field fields =>
      -- The key is read up to its closing quote, the value up to the comma.
      have htext : prettyFields level ((some key, value) :: field :: fields) ++ rest =
          '"' :: (key.toList.flatMap escapeChar ++
            '"' :: ':' :: ' ' :: (prettyAt (level + 1) value ++
              ',' :: (newLine (level + 1) ++ (prettyFields level (field :: fields) ++ rest)))) := by
        simp [prettyFields, quotedKey, quoted]
      have hlength : (prettyAt (level + 1) value).length < fuel ∧
          (prettyFields level (field :: fields)).length < fuel := by
        simp only [prettyFields, List.length_append, List.length_cons] at hfuel ⊢
        omega
      have hfields := ih (List.cons_ne_nil _ _)
        (fun field hmem => hkey field (List.mem_cons_of_mem _ hmem))
        (fun field hmem => h field (List.mem_cons_of_mem _ hmem)) hlength.2
      rw [htext, readFields, skipGaps_of_not_gap (by decide)]
      simp only [readString_quoted, Option.bind_eq_bind, Option.bind_some]
      rw [skipGaps_of_not_gap (by decide)]
      simp only [readValue_blank, hvalue (ends_comma _) hlength.1, Option.bind_some]
      rw [skipGaps_of_not_gap (by decide)]
      simp only [readFields_newLine, hfields]
      rfl

/-- A number is read back. -/
theorem readsBack_nat (n : Nat) : ReadsBack (nat n) := by
  intro level fuel rest hrest hfuel
  obtain ⟨fuel, rfl⟩ : ∃ n, fuel = n + 1 := ⟨fuel - 1, by omega⟩
  obtain ⟨c, cs, hcs⟩ := List.exists_cons_of_ne_nil (Nat.toDigits_ne_nil (n := n) (b := 10))
  have hc : c.isDigit = true := isDigit_of_mem_toDigits (n := n) (by rw [hcs]; simp)
  have htext : prettyAt level (nat n) = Nat.toDigits 10 n := by
    simp [prettyAt, scalar, nat, spelled, Numeral.ofNat]
  have hread := readNumeral_ofNat n hrest
  rw [htext]
  rw [hcs, List.cons_append] at hread ⊢
  rw [readValue_digit hc, hread]
  rfl

/-- An array is read back if its items are. -/
theorem readsBack_array {items : List Json} (h : ∀ item ∈ items, Written item)
    (hitems : ∀ item ∈ items, ReadsBack item) : ReadsBack (.array items) := by
  intro level fuel rest hrest hfuel
  obtain ⟨fuel, rfl⟩ : ∃ n, fuel = n + 1 := ⟨fuel - 1, by omega⟩
  cases items with
  | nil => rfl
  | cons item items =>
    have htext : prettyAt level (.array (item :: items)) ++ rest =
        '[' :: (newLine (level + 1) ++ (prettyItems level (item :: items) ++ rest)) := by
      simp [prettyAt]
    have hlength : (prettyItems level (item :: items)).length < fuel := by
      simp only [prettyAt, List.length_append, List.length_cons] at hfuel
      omega
    have hread := readItems_prettyItems (List.cons_ne_nil item items) hitems rest hlength
    -- The first item starts with no bracket, so the array is not the empty one.
    obtain ⟨more, hmore⟩ := prettyItems_cons level item items
    obtain ⟨c, cs, hcs, hgap, hbracket⟩ := head_prettyAt (h item List.mem_cons_self) (level + 1)
    rw [hmore, hcs, List.cons_append, List.cons_append] at hread htext
    rw [htext, readValue, skipGaps_of_not_gap (by decide)]
    simp only [skipGaps_newLine]
    rw [skipGaps_of_not_gap hgap]
    split
    · next hclose => exact absurd (List.cons.inj hclose).1 hbracket
    · rw [hread]
      rfl

/-- An object is read back if its values are, and all its keys are texts. -/
theorem readsBack_object {fields : List (Option String × Json)}
    (hkey : ∀ field ∈ fields, field.1.isSome) (hfields : ∀ field ∈ fields, ReadsBack field.2) :
    ReadsBack (.object fields) := by
  intro level fuel rest hrest hfuel
  obtain ⟨fuel, rfl⟩ : ∃ n, fuel = n + 1 := ⟨fuel - 1, by omega⟩
  cases fields with
  | nil => rfl
  | cons field fields =>
    have htext : prettyAt level (.object (field :: fields)) ++ rest =
        '\x7b' :: (newLine (level + 1) ++ (prettyFields level (field :: fields) ++ rest)) := by
      simp [prettyAt]
    have hlength : (prettyFields level (field :: fields)).length < fuel := by
      simp only [prettyAt, List.length_append, List.length_cons] at hfuel
      omega
    have hread := readFields_prettyFields (List.cons_ne_nil field fields) hkey hfields rest hlength
    -- The first key starts with a quote, so the object is not the empty one.
    obtain ⟨cs, hcs⟩ : ∃ cs, prettyFields level (field :: fields) ++ rest = '"' :: cs := by
      obtain ⟨key, value⟩ := field
      cases fields <;> cases key <;> exact ⟨_, rfl⟩
    rw [htext, readValue, skipGaps_of_not_gap (by decide)]
    simp only [skipGaps_newLine]
    rw [hcs, skipGaps_of_not_gap (by decide)]
    rw [hcs] at hread
    simp [hread]

/-- What is written over several lines is read back. -/
theorem readsBack {value : Json} (h : Written value) : ReadsBack value := by
  induction h with
  | null =>
    intro level fuel rest hrest hfuel
    obtain ⟨fuel, rfl⟩ : ∃ n, fuel = n + 1 := ⟨fuel - 1, by omega⟩
    rfl
  | bool b =>
    intro level fuel rest hrest hfuel
    obtain ⟨fuel, rfl⟩ : ∃ n, fuel = n + 1 := ⟨fuel - 1, by omega⟩
    cases b <;> rfl
  | nat n => exact readsBack_nat n
  | text s =>
    intro level fuel rest hrest hfuel
    obtain ⟨fuel, rfl⟩ : ∃ n, fuel = n + 1 := ⟨fuel - 1, by omega⟩
    have htext : prettyAt level (.text s) ++ rest =
        '"' :: (s.toList.flatMap escapeChar ++ '"' :: rest) := by simp [prettyAt, scalar, quoted]
    rw [htext, readValue_quoted]
  | array h ih => exact readsBack_array h ih
  | object hkey hvalue ih => exact readsBack_object hkey ih

/-- A value is read from the text that is written for it. -/
theorem read?_pretty {value : Json} (h : Written value) : read? value.pretty = some value := by
  have hends : Ends [] := by
    intro c hc
    cases hc
  have hread := readsBack h hends (Nat.lt_succ_self (prettyAt 0 value).length)
  rw [List.append_nil] at hread
  unfold read? pretty
  rw [hread]
  rfl

end ApiCatalog.Json
