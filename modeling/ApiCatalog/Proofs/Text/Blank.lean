import ApiCatalog.Proofs.Text.Split
import ApiCatalog.Text.Blank
import ApiCatalog.Text.Word
import Mathlib.Data.List.DropRight

/-!
# Trimmed text and words

A text is *solid* if it is not empty and has no blank at either end, so trimming does not change
it; a *word* has no blank at all. Solid texts joined by blanks are solid again (`solid_joinWith`),
and a word in front of them is read off as it was written (`nextWord_joinWith`).
-/

namespace ApiCatalog.Text

variable {cs w : List Char} {ws : List (List Char)} {c : Char}

/-! ## Blanks and other classes -/

/-- Classes whose ranges do not meet have no character in common. -/
theorem inRanges_of_disjoint {ranges ranges' : List (Nat × Nat)}
    (hdisjoint : ∀ r ∈ ranges, ∀ r' ∈ ranges', r.2 < r'.1 ∨ r'.2 < r.1)
    (h : inRanges ranges c = true) : inRanges ranges' c = false := by
  obtain ⟨r, hr, hc⟩ := List.any_eq_true.1 h
  refine List.any_eq_false.2 fun r' hr' => ?_
  have hapart := hdisjoint r hr r' hr'
  simp only [Bool.and_eq_true, decide_eq_true_eq] at hc ⊢
  omega

/-- No digit is blank. -/
theorem isBlank_of_isDecimalDigit (h : isDecimalDigit c = true) : isBlank c = false :=
  inRanges_of_disjoint (by decide +kernel) h

/-- No blank is part of a word. -/
theorem isBlank_of_isWordChar (h : isWordChar c = true) : isBlank c = false := by
  unfold isWordChar isAlphabetic at h
  simp only [Bool.or_eq_true] at h
  rcases h with (((((h | h) | h) | h) | h) | h) | h
  · exact inRanges_of_disjoint (by decide +kernel) h
  · exact inRanges_of_disjoint (by decide +kernel) h
  · exact inRanges_of_disjoint (by decide +kernel) h
  · exact inRanges_of_disjoint (by decide +kernel) h
  · exact isBlank_of_isDecimalDigit h
  · exact inRanges_of_disjoint (by decide +kernel) h
  · exact inRanges_of_disjoint (by decide +kernel) h

/-! ## Trimming -/

/-- A blank in front is dropped. -/
theorem trimStart_cons_blank (hc : isBlank c = true) : trimStart (c :: cs) = trimStart cs := by
  simp [trimStart, hc]

/-- Any other character stays, and all behind it. -/
theorem trimStart_cons (hc : isBlank c = false) : trimStart (c :: cs) = c :: cs :=
  List.dropWhile_cons_of_neg (Bool.eq_false_iff.1 hc)

/-- A character that is not blank stays at the end. -/
theorem trimEnd_append_singleton (hc : isBlank c = false) : trimEnd (cs ++ [c]) = cs ++ [c] :=
  List.rdropWhile_concat_neg _ _ _ (Bool.eq_false_iff.1 hc)

/-- A blank at the end is dropped. -/
theorem trimEnd_append_blank (hc : isBlank c = true) : trimEnd (cs ++ [c]) = trimEnd cs :=
  List.rdropWhile_concat_pos _ _ _ hc

/-- Trimming makes no text longer. -/
theorem length_trimStart_le (cs : List Char) : (trimStart cs).length ≤ cs.length :=
  (List.dropWhile_sublist _).length_le

theorem length_trimEnd_le (cs : List Char) : (trimEnd cs).length ≤ cs.length :=
  (List.rdropWhile_prefix _ _).length_le

/-- A blank in front makes no difference. -/
theorem trim_cons_blank (hc : isBlank c = true) : trim (c :: cs) = trim cs := by
  rw [trim, trimStart_cons_blank hc, trim]

theorem trim_append_blank (hc : isBlank c = true) : trim (cs ++ [c]) = trim cs := by
  induction cs with
  | nil =>
    rw [List.nil_append, trim_cons_blank hc]
  | cons d cs ih =>
    cases hd : isBlank d with
    | true => rw [List.cons_append, trim_cons_blank hd, trim_cons_blank hd, ih]
    | false =>
      rw [trim, trim, List.cons_append, trimStart_cons hd, trimStart_cons hd, ← List.cons_append,
        trimEnd_append_blank hc]

theorem trim_append_of_blank {gap : List Char} (hgap : ∀ c ∈ gap, isBlank c = true) :
    trim (gap ++ cs) = trim cs := by
  induction gap with
  | nil => rfl
  | cons c gap ih =>
    obtain ⟨hc, hgap⟩ := List.forall_mem_cons.1 hgap
    rw [List.cons_append, trim_cons_blank hc, ih hgap]

/-- Blanks around a text are trimmed away. -/
theorem trim_surrounded {before after : List Char} (hbefore : ∀ c ∈ before, isBlank c = true)
    (hafter : ∀ c ∈ after, isBlank c = true) (cs : List Char) :
    trim (before ++ (cs ++ after)) = trim cs := by
  rw [trim_append_of_blank hbefore]
  induction after using List.reverseRecOn with
  | nil => rw [List.append_nil]
  | append_singleton after c ih =>
    have hc : isBlank c = true := hafter c (by simp)
    rw [← List.append_assoc, trim_append_blank hc]
    exact ih fun d hd => hafter d (List.mem_append_left _ hd)

/-- A trimmed text has no blank in front. -/
theorem trimStart_of_trim (h : trim cs = cs) : trimStart cs = cs := by
  refine (List.dropWhile_suffix _).eq_of_length (Nat.le_antisymm (length_trimStart_le cs) ?_)
  calc cs.length = (trim cs).length := by rw [h]
    _ ≤ (trimStart cs).length := length_trimEnd_le _

theorem trimEnd_of_trim (h : trim cs = cs) : trimEnd cs = cs := by
  rw [trim, trimStart_of_trim h] at h
  exact h

/-- Text that is trimmed at its end does not end in a blank. -/
theorem isBlank_of_mem_getLast? (h : trimEnd cs = cs) (hc : c ∈ cs.getLast?) :
    isBlank c = false := by
  have hne : cs ≠ [] := by
    rintro rfl
    cases hc
  have hlast := List.rdropWhile_eq_self_iff.1 h hne
  rw [List.getLast?_eq_some_getLast hne, Option.mem_some_iff] at hc
  rw [hc] at hlast
  exact Bool.eq_false_iff.2 hlast

/-- Behind a character that is no blank, the end is trimmed as if that character were not there. -/
theorem trimEnd_cons (hc : isBlank c = false) : trimEnd (c :: cs) = c :: trimEnd cs := by
  have hreverse : trimEnd (c :: cs) = ((cs.reverse ++ [c]).dropWhile isBlank).reverse := by
    rw [← List.reverse_cons]
    rfl
  rw [hreverse, List.dropWhile_append]
  split
  · next hempty => simp [trimEnd, dropEndWhile, hc, List.isEmpty_iff.1 hempty]
  · simp [trimEnd, dropEndWhile]

/-- A word in front of a text stays when the text is trimmed from behind. -/
theorem trimEnd_append (hw : ∀ c ∈ w, isBlank c = false) : trimEnd (w ++ cs) = w ++ trimEnd cs := by
  induction w with
  | nil => rfl
  | cons c w ih =>
    obtain ⟨hc, hw⟩ := List.forall_mem_cons.1 hw
    rw [List.cons_append, trimEnd_cons hc, ih hw, List.cons_append]

/-- The first character stays if anything does. -/
theorem trimEnd_cons_cases (c : Char) (cs : List Char) :
    trimEnd (c :: cs) = [] ∨ trimEnd (c :: cs) = c :: trimEnd cs := by
  cases hc : isBlank c with
  | false => exact .inr (trimEnd_cons hc)
  | true =>
    induction cs using List.reverseRecOn with
    | nil => exact .inl (by simp [trimEnd, dropEndWhile, hc])
    | append_singleton cs d ih =>
      cases hd : isBlank d with
      | true =>
        rw [trimEnd_append_blank hd, ← List.cons_append, trimEnd_append_blank hd]
        exact ih
      | false =>
        exact .inr (by rw [trimEnd_append_singleton hd, ← List.cons_append,
          trimEnd_append_singleton hd])

/-- The first character goes if it is a blank with nothing left behind it. -/
theorem trimEnd_cons_eq (c : Char) (cs : List Char) :
    trimEnd (c :: cs) = if trimEnd cs = [] ∧ isBlank c = true then [] else c :: trimEnd cs := by
  split
  · next h =>
    exact List.rdropWhile_eq_nil_iff.2
      (List.forall_mem_cons.2 ⟨h.2, List.rdropWhile_eq_nil_iff.1 h.1⟩)
  · next h =>
    refine (trimEnd_cons_cases c cs).resolve_left fun hnil => h ?_
    obtain ⟨hc, hcs⟩ := List.forall_mem_cons.1 (List.rdropWhile_eq_nil_iff.1 hnil)
    exact ⟨List.rdropWhile_eq_nil_iff.2 hcs, hc⟩

/-- A blank in front is what is left of it, or it goes with all that follows. -/
theorem head?_trimEnd (h : ∀ c ∈ cs.head?, isBlank c = true) :
    ∀ c ∈ (trimEnd cs).head?, isBlank c = true := by
  cases cs with
  | nil => exact h
  | cons b cs =>
    rcases trimEnd_cons_cases b cs with hnil | hcons
    · rw [hnil]
      exact fun c hc => by cases hc
    · rw [hcons]
      exact h

/-- Trimming from behind first makes no difference. -/
theorem trim_trimEnd (cs : List Char) : trim (trimEnd cs) = trim cs := by
  induction cs using List.reverseRecOn with
  | nil => rfl
  | append_singleton cs d ih =>
    cases hd : isBlank d with
    | true => rw [trimEnd_append_blank hd, trim_append_blank hd, ih]
    | false => rw [trimEnd_append_singleton hd]

/-- A text is not trimmed further from the front. -/
theorem trimStart_trim (cs : List Char) : trimStart (trim cs) = trim cs := by
  have hstart : ∀ c ∈ (trimStart cs).head?, isBlank c = false := by
    intro c hc
    have hnot := List.head?_dropWhile_not isBlank cs
    rw [← trimStart, hc] at hnot
    exact hnot
  rw [trim]
  cases hcs : trimStart cs with
  | nil => rfl
  | cons c rest =>
    have hc : isBlank c = false := hstart c (by rw [hcs]; rfl)
    rw [trimEnd_cons hc, trimStart_cons hc]

/-- Trimming twice is trimming once. -/
theorem trim_trim (cs : List Char) : trim (trim cs) = trim cs := by
  have hend : trimEnd (trim cs) = trim cs := List.rdropWhile_idempotent _ _
  rw [trim, trimStart_trim, hend]

/-- Nothing is left just if there were only blanks. -/
theorem trim_eq_nil_iff : trim cs = [] ↔ ∀ c ∈ cs, isBlank c = true := by
  constructor
  · intro hnil
    refine List.dropWhile_eq_nil_iff.1 ?_
    by_contra hstart
    obtain ⟨c, rest, hcs⟩ := List.exists_cons_of_ne_nil hstart
    have hblank := List.rdropWhile_eq_nil_iff.1 hnil c
      (by rw [trimStart, hcs]; exact List.mem_cons_self)
    have hnot := List.head?_dropWhile_not isBlank cs
    rw [hcs] at hnot
    exact Bool.eq_false_iff.1 hnot hblank
  · intro hblank
    have hstart : trimStart cs = [] := List.dropWhile_eq_nil_iff.2 hblank
    rw [trim, hstart]
    rfl

/-- What no blank at either end changes is the same for a trimmed text. -/
theorem apply_trim {β : Type} {f : List Char → β}
    (hfront : ∀ c cs, isBlank c = true → f (c :: cs) = f cs)
    (hback : ∀ c cs, isBlank c = true → f (cs ++ [c]) = f cs) (cs : List Char) :
    f (trim cs) = f cs := by
  have hstart : f (trimStart cs) = f cs := by
    induction cs with
    | nil => rfl
    | cons c cs ih =>
      cases hc : isBlank c with
      | true => rw [trimStart_cons_blank hc, ih, hfront c cs hc]
      | false => rw [trimStart_cons hc]
  have hend : ∀ cs, f (trimEnd cs) = f cs := by
    intro cs
    induction cs using List.reverseRecOn with
    | nil => rfl
    | append_singleton cs c ih =>
      cases hc : isBlank c with
      | true => rw [trimEnd_append_blank hc, ih, hback c cs hc]
      | false => rw [trimEnd_append_singleton hc]
  rw [trim, hend, hstart]

/-- Trimming takes off blanks only. -/
theorem filter_trim (cs : List Char) : (trim cs).filter (!isBlank ·) = cs.filter (!isBlank ·) :=
  apply_trim (fun c cs hc => by simp [hc]) (fun c cs hc => by simp [hc]) cs

/-- Trimming brings no character. -/
theorem mem_of_mem_trim (h : c ∈ trim cs) : c ∈ cs :=
  (List.dropWhile_suffix _).subset ((List.rdropWhile_prefix _ _).subset h)

/-- The end of a text that is trimmed at its end is so too. -/
theorem trimEnd_of_suffix {part : List Char} (h : trimEnd cs = cs) (hpart : part <:+ cs) :
    trimEnd part = part := by
  refine List.rdropWhile_eq_self_iff.2 fun hne => ?_
  obtain ⟨front, rfl⟩ := hpart
  have hlast := isBlank_of_mem_getLast? h (c := part.getLast hne) (by
    rw [List.getLast?_append_of_ne_nil _ hne, List.getLast?_eq_some_getLast hne]
    rfl)
  rw [hlast]
  exact Bool.false_ne_true

/-- Trimming the end of a trimmed text takes off what stands in front only. -/
theorem trim_suffix {part : List Char} (h : trim cs = cs) (hpart : part <:+ cs) :
    trim part <:+ cs := by
  have hstart : trimStart part <:+ cs := (List.dropWhile_suffix _).trans hpart
  rw [trim, trimEnd_of_suffix (trimEnd_of_trim h) hstart]
  exact hstart

/-! ## One character at the ends -/

/-- Where the character is not in front, nothing is dropped. -/
theorem dropLeading_eq_self (h : cs.head? ≠ some c) : dropLeading c cs = cs := by
  cases cs with
  | nil => rfl
  | cons d cs =>
    have hd : (d == c) = false := beq_eq_false_iff_ne.2 fun heq => h (congrArg some heq)
    unfold dropLeading
    rw [List.dropWhile_cons, hd]
    rfl

/-- The last piece does not depend on separators in front of the text. -/
theorem lastPiece_dropLeading (c : Char) (cs : List Char) :
    lastPiece c (dropLeading c cs) = lastPiece c cs := by
  induction cs with
  | nil => rfl
  | cons d cs ih =>
    by_cases hd : d = c
    · subst hd
      have hdrop : dropLeading d (d :: cs) = dropLeading d cs := by simp [dropLeading]
      rw [hdrop, ih]
      exact (lastPiece_append_cons [] cs).symm
    · rw [dropLeading_eq_self (by simpa using hd)]

/-- Without the character at either end, there is nothing to drop. -/
theorem dropAround_eq_self (hhead : cs.head? ≠ some c) (hlast : cs.getLast? ≠ some c) :
    dropAround c cs = cs := by
  have hreverse : cs.reverse.head? ≠ some c := by rwa [List.head?_reverse]
  unfold dropAround
  rw [dropLeading_eq_self hhead]
  exact (congrArg List.reverse (dropLeading_eq_self hreverse)).trans cs.reverse_reverse

/-- Only what stands at the ends is dropped. -/
theorem dropAround_append {before after : List Char} (hbefore : ∀ d ∈ before, d = c)
    (hafter : ∀ d ∈ after, d = c) (hhead : cs.head? ≠ some c) (hlast : cs.getLast? ≠ some c) :
    dropAround c (before ++ (cs ++ after)) = cs := by
  have hstart : dropLeading c (before ++ (cs ++ after)) = dropLeading c (cs ++ after) :=
    List.dropWhile_append_of_pos (by simpa using hbefore)
  have hstop : dropLeading c (after.reverse ++ cs.reverse) = dropLeading c cs.reverse :=
    List.dropWhile_append_of_pos (by simpa using hafter)
  cases cs with
  | nil =>
    have hnil : dropLeading c ([] ++ after) = [] := List.dropWhile_eq_nil_iff.2 (by simpa using hafter)
    rw [dropAround, hstart, hnil]
    rfl
  | cons d cs =>
    have hkeep : dropLeading c (d :: cs ++ after) = d :: cs ++ after := dropLeading_eq_self hhead
    have hreverse : (d :: cs).reverse.head? ≠ some c := by rwa [List.head?_reverse]
    rw [dropAround, hstart, hkeep]
    show (dropLeading c (d :: cs ++ after).reverse).reverse = d :: cs
    rw [List.reverse_append, hstop, dropLeading_eq_self hreverse, List.reverse_reverse]

/-- What is dropped at the ends is made of the character. -/
theorem exists_dropAround (c : Char) (cs : List Char) : ∃ before after, (∀ d ∈ before, d = c) ∧
    (∀ d ∈ after, d = c) ∧ cs = before ++ (dropAround c cs ++ after) := by
  have hsame : ∀ {ds : List Char}, ∀ d ∈ ds.takeWhile (· == c), d = c :=
    fun d hd => eq_of_beq (List.mem_takeWhile_imp (p := (· == c)) hd)
  refine ⟨cs.takeWhile (· == c), ((dropLeading c cs).reverse.takeWhile (· == c)).reverse, hsame,
    fun d hd => hsame d (List.mem_reverse.1 hd), ?_⟩
  show cs = _ ++ (((dropLeading c cs).reverse.dropWhile (· == c)).reverse ++ _)
  rw [← List.reverse_append, List.takeWhile_append_dropWhile, List.reverse_reverse, dropLeading,
    List.takeWhile_append_dropWhile]

/-- Joined pieces are left, if none of them is empty. -/
theorem dropAround_joinWith {before after : List Char} {pieces : List (List Char)}
    (hbefore : ∀ d ∈ before, d = c) (hafter : ∀ d ∈ after, d = c)
    (hpieces : ∀ piece ∈ pieces, piece ≠ [] ∧ c ∉ piece) :
    dropAround c (before ++ (joinWith c pieces ++ after)) = joinWith c pieces :=
  dropAround_append hbefore hafter (head?_joinWith_ne hpieces) (getLast?_joinWith_ne hpieces)

/-! ## Solid text -/

/-- The text is not empty and starts and ends without a blank. -/
structure Solid (cs : List Char) : Prop where
  ne_nil : cs ≠ []
  head : ∀ c ∈ cs.head?, isBlank c = false
  last : ∀ c ∈ cs.getLast?, isBlank c = false

/-- The text is not empty and has no blank. -/
structure IsWord (w : List Char) : Prop where
  ne_nil : w ≠ []
  no_blank : ∀ c ∈ w, isBlank c = false

/-- Whether a text is a word can be tested. -/
theorem isWord_iff : IsWord w ↔ w ≠ [] ∧ w.all (!isBlank ·) = true :=
  ⟨fun h => ⟨h.ne_nil, by simpa using h.no_blank⟩, fun h => ⟨h.1, by simpa using h.2⟩⟩

instance (w : List Char) : Decidable (IsWord w) := decidable_of_iff' _ isWord_iff

/-- A character that is not blank makes a word with what is none either. -/
theorem isWord_cons (hc : isBlank c = false) (h : ∀ d ∈ w, isBlank d = false) : IsWord (c :: w) :=
  ⟨List.cons_ne_nil c w, List.forall_mem_cons.2 ⟨hc, h⟩⟩

/-- A word is a solid text. -/
theorem IsWord.solid (h : IsWord w) : Solid w :=
  ⟨h.ne_nil, fun c hc => h.no_blank c (List.mem_of_mem_head? hc),
    fun c hc => h.no_blank c (List.mem_of_getLast? hc)⟩

/-- A word in front keeps a text from being trimmed there. -/
theorem IsWord.trimStart_append (hw : IsWord w) (cs : List Char) :
    trimStart (w ++ cs) = w ++ cs := by
  obtain ⟨c, more, rfl⟩ := List.exists_cons_of_ne_nil hw.ne_nil
  exact trimStart_cons (hw.no_blank c List.mem_cons_self)

/-- Behind a word, only the end is trimmed. -/
theorem IsWord.trim_append (hw : IsWord w) (cs : List Char) : trim (w ++ cs) = w ++ trimEnd cs := by
  rw [trim, hw.trimStart_append, trimEnd_append hw.no_blank]

/-- A solid text does not start with a blank. -/
theorem Solid.trimStart_eq (h : Solid cs) : trimStart cs = cs := by
  obtain ⟨c, rest, rfl⟩ := List.exists_cons_of_ne_nil h.ne_nil
  exact trimStart_cons (h.head c rfl)

theorem Solid.trimEnd_eq (h : Solid cs) : trimEnd cs = cs := by
  refine List.rdropWhile_eq_self_iff.2 fun hne => ?_
  rw [h.last _ (List.getLast?_eq_some_getLast hne)]
  exact Bool.false_ne_true

theorem Solid.trim_eq (h : Solid cs) : trim cs = cs := by
  rw [trim, h.trimStart_eq, h.trimEnd_eq]

/-- Text that trimming does not change is solid, if it is not empty. -/
theorem solid_of_trim (h : trim cs = cs) (hne : cs ≠ []) : Solid cs := by
  have hstart := trimStart_of_trim h
  have hend := trimEnd_of_trim h
  obtain ⟨c, rest, rfl⟩ := List.exists_cons_of_ne_nil hne
  refine ⟨hne, fun d hd => ?_, fun d hd => isBlank_of_mem_getLast? hend hd⟩
  obtain rfl := Option.some.inj hd
  exact Bool.eq_false_iff.2 (List.dropWhile_eq_self_iff.1 hstart (Nat.succ_pos _))

/-- Solid texts stay solid with anything between them. -/
theorem Solid.append {front back : List Char} (hfront : Solid front) (hback : Solid back)
    (middle : List Char) : Solid (front ++ (middle ++ back)) := by
  refine ⟨by simp [hfront.ne_nil], ?_, ?_⟩
  · rw [List.head?_append_of_ne_nil _ hfront.ne_nil]
    exact hfront.head
  · rw [List.getLast?_append_of_ne_nil _ (by simp [hback.ne_nil]),
      List.getLast?_append_of_ne_nil _ hback.ne_nil]
    exact hback.last

/-- Solid texts with separators between them make a solid text. -/
theorem solid_joinWith (sep : Char) (hne : ws ≠ []) (h : ∀ p ∈ ws, Solid p) :
    Solid (joinWith sep ws) := by
  induction ws with
  | nil => exact absurd rfl hne
  | cons p ws ih =>
    have hp := h p List.mem_cons_self
    cases ws with
    | nil => exact hp
    | cons next ws =>
      rw [joinWith_cons_cons]
      exact hp.append (ih (by simp) fun q hq => h q (List.mem_cons_of_mem _ hq)) [sep]

theorem trim_joinWith (sep : Char) (h : ∀ p ∈ ws, Solid p) :
    trim (joinWith sep ws) = joinWith sep ws := by
  by_cases hne : ws = []
  · subst hne
    rfl
  · exact (solid_joinWith sep hne h).trim_eq

/-! ## The first word -/

/-- The first word of a solid text begins at once. -/
theorem nextWord_of_solid (h : Solid cs) :
    nextWord cs = (cs.takeWhile (!isBlank ·), trim (cs.dropWhile (!isBlank ·))) := by
  rw [nextWord, h.trimStart_eq]

/-- A word is read off in front of whatever follows it behind a blank. -/
theorem nextWord_append {rest : List Char} (hw : IsWord w)
    (hrest : ∀ c ∈ rest.head?, isBlank c = true) : nextWord (w ++ rest) = (w, trim rest) := by
  have hword : ∀ c ∈ w, (!isBlank c) = true := fun c hc => by simp [hw.no_blank c hc]
  have hstop : rest.takeWhile (!isBlank ·) = [] ∧ rest.dropWhile (!isBlank ·) = rest := by
    cases rest with
    | nil => exact ⟨rfl, rfl⟩
    | cons c rest => simp [hrest c rfl]
  rw [nextWord, hw.trimStart_append, List.takeWhile_append_of_pos hword, List.dropWhile_append_of_pos hword,
    hstop.1, hstop.2, List.append_nil]

/-- A word is read off as it was written, up to the blank behind it. -/
theorem nextWord_joinWith (hw : IsWord w) (h : ∀ p ∈ ws, Solid p) :
    nextWord (joinWith ' ' (w :: ws)) = (w, joinWith ' ' ws) := by
  cases ws with
  | nil =>
    have hjoin : joinWith ' ' [w] = w ++ [] := (List.append_nil w).symm
    rw [hjoin, nextWord_append hw fun c hc => by cases hc]
    rfl
  | cons p ws =>
    have hspace : isBlank ' ' = true := by decide
    have hblank : ∀ c ∈ (' ' :: joinWith ' ' (p :: ws)).head?, isBlank c = true := by
      rintro c ⟨⟩
      exact hspace
    rw [joinWith_cons_cons, nextWord_append hw hblank, trim_cons_blank hspace, trim_joinWith ' ' h]

/-- What is behind the first word is an end of the text. -/
theorem nextWord_snd_suffix (h : trim cs = cs) : (nextWord cs).2 <:+ cs :=
  trim_suffix h ((List.dropWhile_suffix _).trans (List.dropWhile_suffix _))

theorem trim_nextWord_snd (cs : List Char) : trim (nextWord cs).2 = (nextWord cs).2 := trim_trim _

/-- An empty text has an empty first word. -/
theorem nextWord_nil : nextWord [] = ([], []) := rfl

/-- No blank is in the first word. -/
theorem no_blank_of_mem_nextWord (hc : c ∈ (nextWord cs).1) : isBlank c = false := by
  have hword := List.mem_takeWhile_imp hc
  simpa using hword

/-- The first word of a solid text is a word. -/
theorem isWord_nextWord (h : Solid cs) : IsWord (nextWord cs).1 := by
  refine ⟨?_, fun c hc => no_blank_of_mem_nextWord hc⟩
  obtain ⟨c, rest, rfl⟩ := List.exists_cons_of_ne_nil h.ne_nil
  have hc : isBlank c = false := h.head c rfl
  rw [nextWord_of_solid h]
  simp [hc]

/-- What follows the first word of a solid text is not all of it. -/
theorem nextWord_snd_ne (h : Solid cs) : (nextWord cs).2 ≠ cs := by
  obtain ⟨c, rest, rfl⟩ := List.exists_cons_of_ne_nil h.ne_nil
  have hc : isBlank c = false := h.head c rfl
  have hlength : (nextWord (c :: rest)).2.length ≤ rest.length := by
    rw [nextWord_of_solid h]
    simp only [List.dropWhile_cons, hc, Bool.not_false, if_true]
    calc (trim (rest.dropWhile (!isBlank ·))).length
        ≤ (trimStart (rest.dropWhile (!isBlank ·))).length := length_trimEnd_le _
      _ ≤ (rest.dropWhile (!isBlank ·)).length := length_trimStart_le _
      _ ≤ rest.length := (List.dropWhile_sublist _).length_le
  intro heq
  rw [heq, List.length_cons] at hlength
  omega

end ApiCatalog.Text
