import ApiCatalog.Text.Split
import Mathlib.Data.List.Basic
import Mathlib.Data.List.TakeWhile

/-!
# Pieces of a text

Cutting a text at a character and joining pieces with it undo each other, as long as no piece holds
the character. Both operations are those of the library on lists, so what is known of them there
carries over.
-/

namespace ApiCatalog.Text

variable {α : Type} {sep : α}

/-! ## Joining -/

/-- Joining is the joining of lists in the library. -/
theorem joinWith_eq (pieces : List (List α)) :
    joinWith sep pieces = [sep].intercalate pieces := by
  induction pieces with
  | nil => rfl
  | cons piece pieces ih =>
    cases pieces with
    | nil => simp [joinWith]
    | cons next more => simp [joinWith, ih, List.intercalate_cons_cons]

/-- A separator stands behind every piece but the last one. -/
theorem joinWith_cons_cons (piece next : List α) (pieces : List (List α)) :
    joinWith sep (piece :: next :: pieces) = piece ++ sep :: joinWith sep (next :: pieces) := rfl

/-- Pieces in front and behind are joined on their own, with a separator between. -/
theorem joinWith_append {front back : List (List α)} (hfront : front ≠ []) (hback : back ≠ []) :
    joinWith sep (front ++ back) = joinWith sep front ++ sep :: joinWith sep back := by
  induction front with
  | nil => exact absurd rfl hfront
  | cons piece front ih =>
    cases front with
    | nil =>
      obtain ⟨next, more, rfl⟩ := List.exists_cons_of_ne_nil hback
      rfl
    | cons next front =>
      have hrest := ih (List.cons_ne_nil next front)
      rw [List.cons_append] at hrest
      rw [List.cons_append, List.cons_append, joinWith_cons_cons, joinWith_cons_cons, hrest,
        List.append_assoc, List.cons_append]

/-- One more piece comes behind a separator. -/
theorem joinWith_append_singleton (last : List α) {pieces : List (List α)}
    (hne : pieces ≠ []) :
    joinWith sep (pieces ++ [last]) = joinWith sep pieces ++ sep :: last :=
  joinWith_append hne (List.cons_ne_nil last [])

/-- Text in front of the first piece belongs to that piece. -/
theorem joinWith_append_cons (front piece : List α) (pieces : List (List α)) :
    joinWith sep ((front ++ piece) :: pieces) = front ++ joinWith sep (piece :: pieces) := by
  cases pieces with
  | nil => rfl
  | cons next pieces => rw [joinWith_cons_cons, joinWith_cons_cons, List.append_assoc]

/-- Text behind the last piece belongs to that piece. -/
theorem joinWith_append_last (last back : List α) (pieces : List (List α)) :
    joinWith sep (pieces ++ [last ++ back]) = joinWith sep (pieces ++ [last]) ++ back := by
  by_cases hne : pieces = []
  · subst hne
    rfl
  · rw [joinWith_append_singleton _ hne, joinWith_append_singleton _ hne]
    simp

/-- What is joined begins like the first piece, if that is not empty. -/
theorem head?_joinWith_cons {piece : List α} (hne : piece ≠ []) (pieces : List (List α)) :
    (joinWith sep (piece :: pieces)).head? = piece.head? := by
  obtain ⟨c, rest, rfl⟩ := List.exists_cons_of_ne_nil hne
  cases pieces with
  | nil => rfl
  | cons next pieces => rfl

theorem joinWith_cons_ne_nil {piece : List α} (hne : piece ≠ []) (pieces : List (List α)) :
    joinWith sep (piece :: pieces) ≠ [] := by
  intro hempty
  have hhead : (joinWith sep (piece :: pieces)).head? = piece.head? :=
    head?_joinWith_cons hne pieces
  rw [hempty] at hhead
  exact hne (List.head?_eq_none_iff.1 hhead.symm)

/-- Pieces that are not empty come to nothing only if there are none. -/
theorem joinWith_eq_nil_iff {pieces : List (List α)} (hpieces : ∀ piece ∈ pieces, piece ≠ []) :
    joinWith sep pieces = [] ↔ pieces = [] := by
  cases pieces with
  | nil => exact iff_of_true rfl rfl
  | cons piece pieces =>
    exact iff_of_false (joinWith_cons_ne_nil (hpieces piece List.mem_cons_self) pieces)
      (List.cons_ne_nil piece pieces)

/-- Joined pieces do not begin with the separator, if none is empty. -/
theorem head?_joinWith_ne {pieces : List (List α)}
    (hpieces : ∀ piece ∈ pieces, piece ≠ [] ∧ sep ∉ piece) :
    (joinWith sep pieces).head? ≠ some sep := by
  cases pieces with
  | nil => simp [joinWith]
  | cons piece pieces =>
    obtain ⟨⟨hne, hsep⟩, -⟩ := List.forall_mem_cons.1 hpieces
    rw [head?_joinWith_cons hne]
    exact fun hhead => hsep (List.mem_of_mem_head? hhead)

theorem getLast?_joinWith_ne {pieces : List (List α)}
    (hpieces : ∀ piece ∈ pieces, piece ≠ [] ∧ sep ∉ piece) :
    (joinWith sep pieces).getLast? ≠ some sep := by
  induction pieces with
  | nil => simp [joinWith]
  | cons piece pieces ih =>
    obtain ⟨⟨-, hsep⟩, hpieces⟩ := List.forall_mem_cons.1 hpieces
    cases pieces with
    | nil => exact fun hlast => hsep (List.mem_of_getLast? hlast)
    | cons next pieces =>
      have hne : joinWith sep (next :: pieces) ≠ [] :=
        joinWith_cons_ne_nil (List.forall_mem_cons.1 hpieces).1.1 pieces
      rw [joinWith_cons_cons, List.getLast?_append_of_ne_nil _ (List.cons_ne_nil _ _),
        List.getLast?_cons_of_ne_nil hne]
      exact ih hpieces

/-- Joined pieces are made of their characters and the separator. -/
theorem mem_joinWith {pieces : List (List α)} {c : α} (h : c ∈ joinWith sep pieces) :
    c = sep ∨ ∃ piece ∈ pieces, c ∈ piece := by
  induction pieces with
  | nil => cases h
  | cons piece pieces ih =>
    cases pieces with
    | nil => exact .inr ⟨piece, List.mem_cons_self, h⟩
    | cons next pieces =>
      rw [joinWith_cons_cons, List.mem_append, List.mem_cons] at h
      rcases h with h | rfl | h
      · exact .inr ⟨piece, List.mem_cons_self, h⟩
      · exact .inl rfl
      · rcases ih h with h | ⟨part, hpart, hc⟩
        · exact .inl h
        · exact .inr ⟨part, List.mem_cons_of_mem _ hpart, hc⟩

/-! ## Cutting -/

section

variable [DecidableEq α]

/-- Cutting is the cutting of lists in the library. -/
theorem splitOn_eq (cs : List α) : splitOn sep cs = cs.splitOn sep := by
  induction cs with
  | nil => rfl
  | cons c cs ih =>
    rw [splitOn, ih, List.splitOn_cons_eq_if_modifyHead]
    by_cases h : c = sep
    · simp [h]
    · cases hpieces : cs.splitOn sep with
      | nil => exact absurd hpieces (List.splitOn_ne_nil _ _)
      | cons piece pieces => simp [h]

/-- There is always a piece. -/
theorem splitOn_ne_nil (cs : List α) : splitOn sep cs ≠ [] := by
  rw [splitOn_eq]
  exact List.splitOn_ne_nil _ _

/-- Without separators there is only one. -/
theorem splitOn_of_not_mem {cs : List α} (h : sep ∉ cs) : splitOn sep cs = [cs] := by
  rw [splitOn_eq]
  exact List.splitOn_eq_singleton h

/-- Text without the character is cut together with what follows it. -/
theorem splitOn_append_of_not_mem {front cs first : List α} {more : List (List α)}
    (hfront : sep ∉ front) (hcs : splitOn sep cs = first :: more) :
    splitOn sep (front ++ cs) = (front ++ first) :: more := by
  induction front with
  | nil => exact hcs
  | cons c front ih =>
    obtain ⟨hc, hfront⟩ := not_or.1 (mt List.mem_cons.2 hfront)
    rw [List.cons_append, splitOn, if_neg (Ne.symm hc), ih hfront]
    rfl

/-- Every occurrence of the character is a cut. -/
theorem splitOn_append_cons (front rest : List α) :
    splitOn sep (front ++ sep :: rest) = splitOn sep front ++ splitOn sep rest := by
  rw [splitOn_eq, splitOn_eq, splitOn_eq]
  exact List.splitOn_append_cons_self front rest

/-- The pieces are made of characters of the text, the separator apart. -/
theorem mem_of_mem_splitOn {cs piece : List α} {c : α} (h : piece ∈ splitOn sep cs)
    (hc : c ∈ piece) : c ∈ cs ∧ c ≠ sep := by
  -- On the text; a piece that goes on has the character in front of it too.
  induction cs generalizing piece with
  | nil =>
    obtain rfl := List.mem_singleton.1 h
    cases hc
  | cons d cs ih =>
    rw [splitOn] at h
    by_cases hd : d = sep
    · rw [if_pos hd] at h
      rcases List.mem_cons.1 h with rfl | h
      · cases hc
      · exact (ih h hc).imp_left (List.mem_cons_of_mem _)
    · rw [if_neg hd] at h
      cases hpieces : splitOn sep cs with
      | nil => exact absurd hpieces (splitOn_ne_nil cs)
      | cons first more =>
        rw [hpieces] at h ih
        rcases List.mem_cons.1 h with rfl | h
        · rcases List.mem_cons.1 hc with rfl | hc
          · exact ⟨List.mem_cons_self, hd⟩
          · exact (ih List.mem_cons_self hc).imp_left (List.mem_cons_of_mem _)
        · exact (ih (List.mem_cons_of_mem _ h) hc).imp_left (List.mem_cons_of_mem _)

/-- What is cut can be put together again. -/
theorem joinWith_splitOn (cs : List α) : joinWith sep (splitOn sep cs) = cs := by
  rw [joinWith_eq, splitOn_eq]
  exact List.intercalate_splitOn sep

/-- What is put together can be cut again, if no piece holds the separator. -/
theorem splitOn_joinWith {pieces : List (List α)} (hne : pieces ≠ [])
    (h : ∀ piece ∈ pieces, sep ∉ piece) : splitOn sep (joinWith sep pieces) = pieces := by
  rw [joinWith_eq, splitOn_eq]
  exact List.splitOn_intercalate sep h hne

/-- Joined pieces can be told apart, if none is empty. -/
theorem joinWith_inj {ps qs : List (List α)} (hps : ∀ p ∈ ps, p ≠ [] ∧ sep ∉ p)
    (hqs : ∀ q ∈ qs, q ≠ [] ∧ sep ∉ q) (h : joinWith sep ps = joinWith sep qs) : ps = qs := by
  cases ps with
  | nil =>
    cases qs with
    | nil => rfl
    | cons q qs => exact absurd h.symm (joinWith_cons_ne_nil (hqs q List.mem_cons_self).1 qs)
  | cons p ps =>
    cases qs with
    | nil => exact absurd h (joinWith_cons_ne_nil (hps p List.mem_cons_self).1 ps)
    | cons q qs =>
      rw [← splitOn_joinWith (List.cons_ne_nil p ps) fun p hp => (hps p hp).2, h,
        splitOn_joinWith (List.cons_ne_nil q qs) fun q hq => (hqs q hq).2]

/-- Another character behind the text belongs to the last piece. -/
theorem splitOn_append_singleton {c : α} {cs last : List α} {front : List (List α)}
    (hc : c ≠ sep) (hcs : splitOn sep cs = front ++ [last]) :
    splitOn sep (cs ++ [c]) = front ++ [last ++ [c]] := by
  have hsource : ∀ piece ∈ front ++ [last], sep ∉ piece := by
    rw [← hcs]
    exact fun piece hpiece hmem => (mem_of_mem_splitOn hpiece hmem).2 rfl
  have hpieces : ∀ piece ∈ front ++ [last ++ [c]], sep ∉ piece := by
    intro piece hpiece hmem
    rcases List.mem_append.1 hpiece with hpiece | hpiece
    · exact hsource piece (List.mem_append_left _ hpiece) hmem
    · rw [List.mem_singleton.1 hpiece, List.mem_append, List.mem_singleton] at hmem
      rcases hmem with hmem | hmem
      · exact hsource last (List.mem_append_right _ (List.mem_singleton.2 rfl)) hmem
      · exact hc hmem.symm
  have hjoin : cs ++ [c] = joinWith sep (front ++ [last ++ [c]]) := by
    rw [joinWith_append_last, ← hcs, joinWith_splitOn]
  rw [hjoin, splitOn_joinWith (by simp) hpieces]

/-- The last piece is behind every separator. -/
theorem lastPiece_append_cons (front rest : List α) :
    lastPiece sep (front ++ sep :: rest) = lastPiece sep rest := by
  rw [lastPiece, splitOn_append_cons, List.getLast?_append_of_ne_nil _ (splitOn_ne_nil rest),
    lastPiece]

/-- Without separators it is the whole. -/
theorem lastPiece_of_not_mem {cs : List α} (h : sep ∉ cs) : lastPiece sep cs = cs := by
  rw [lastPiece, splitOn_of_not_mem h]
  rfl

/-- The text is its last piece, or this stands behind the last occurrence of the character. -/
theorem lastPiece_cases (sep : α) (cs : List α) : sep ∉ lastPiece sep cs ∧
    (lastPiece sep cs = cs ∨ ∃ front, cs = front ++ sep :: lastPiece sep cs) := by
  obtain ⟨init, last, hpieces⟩ : ∃ init last, splitOn sep cs = init ++ [last] :=
    ⟨_, _, (List.dropLast_concat_getLast (splitOn_ne_nil cs)).symm⟩
  have hlast : lastPiece sep cs = last := by
    rw [lastPiece, hpieces, List.getLast?_concat]
    rfl
  have hcs : joinWith sep (init ++ [last]) = cs := by rw [← hpieces, joinWith_splitOn]
  rw [hlast]
  refine ⟨fun hmem => ?_, ?_⟩
  · have hpiece : last ∈ splitOn sep cs := by simp [hpieces]
    exact (mem_of_mem_splitOn hpiece hmem).2 rfl
  · by_cases hinit : init = []
    · subst hinit
      exact .inl hcs
    · exact .inr ⟨_, by rw [← joinWith_append_singleton last hinit, hcs]⟩

end

/-- The text in front of the first occurrence of the character, and behind it. -/
theorem splitFirst?_append {sep : Char} {front : List Char} (h : sep ∉ front) (rest : List Char) :
    splitFirst? sep (front ++ sep :: rest) = some (front, rest) := by
  have hfront : ∀ c ∈ front, (c != sep) = true := fun c hc => by
    simpa using fun heq : c = sep => h (heq ▸ hc)
  rw [splitFirst?, List.takeWhile_append_of_pos hfront, List.dropWhile_append_of_pos hfront]
  simp

/-- Without separators a text is not parted. -/
theorem splitFirst?_of_not_mem {sep : Char} {cs : List Char} (h : sep ∉ cs) : splitFirst? sep cs = none := by
  have hall : cs.dropWhile (· != sep) = [] :=
    List.dropWhile_eq_nil_iff.2 fun c hc => by simpa using fun heq : c = sep => h (heq ▸ hc)
  rw [splitFirst?, hall]

/-! ## Lines -/

/-- A line that ends otherwise is left alone. -/
theorem dropReturn_of_getLast?_ne {line : List Char} (h : line.getLast? ≠ some '\r') :
    dropReturn line = line := if_neg h

/-- One carriage return is dropped from its end. -/
theorem dropReturn_append_return (line : List Char) : dropReturn (line ++ ['\r']) = line := by
  rw [dropReturn, List.getLast?_concat, if_pos rfl, List.dropLast_concat]

/-- Nothing else is. -/
theorem dropReturn_isPrefix (line : List Char) : dropReturn line <+: line := by
  rw [dropReturn]
  split
  · exact line.dropLast_prefix
  · exact List.prefix_rfl

/-- A line that a line feed ends is cut off the lines behind it. -/
theorem lines_append_newline {line : List Char} (h : '\n' ∉ line) (rest : List Char) :
    lines (line ++ '\n' :: rest) = dropReturn line :: lines rest := by
  have hne : splitOn '\n' rest ≠ [] := splitOn_ne_nil rest
  obtain ⟨piece, pieces, hpieces⟩ := List.exists_cons_of_ne_nil hne
  rw [lines, splitOn_append_cons, splitOn_of_not_mem h, lines, hpieces]
  rfl

/-- A line at the end that no line feed ends is one, unless it is empty. -/
theorem lines_of_not_mem {line : List Char} (h : '\n' ∉ line) :
    lines line = if line.isEmpty then [] else [line] := by
  rw [lines, splitOn_of_not_mem h, linesOfPieces]

/-! ## Ends -/

/-- What a text starts with can be dropped, and nothing else. -/
theorem dropStart?_eq_some_iff {start whole rest : List Char} :
    dropStart? start whole = some rest ↔ whole = start ++ rest := by
  unfold dropStart?
  constructor
  · intro h
    split at h
    · next hprefix =>
      obtain ⟨more, rfl⟩ := List.isPrefixOf_iff_prefix.1 hprefix
      rw [List.drop_left] at h
      rw [Option.some.inj h]
    · cases h
  · rintro rfl
    rw [if_pos (List.isPrefixOf_iff_prefix.2 (List.prefix_append start rest)), List.drop_left]

theorem dropStop?_eq_some_iff {stop whole front : List Char} :
    dropStop? stop whole = some front ↔ whole = front ++ stop := by
  unfold dropStop?
  constructor
  · intro h
    split at h
    · next hsuffix =>
      obtain ⟨more, rfl⟩ := List.isSuffixOf_iff_suffix.1 hsuffix
      rw [List.length_append, Nat.add_sub_cancel, List.take_left] at h
      rw [Option.some.inj h]
    · cases h
  · rintro rfl
    rw [if_pos (List.isSuffixOf_iff_suffix.2 (List.suffix_append front stop)), List.length_append,
      Nat.add_sub_cancel, List.take_left]

/-- Unless it is all there is, the end is taken off behind the first character. -/
theorem getD_dropStop?_cons (stop : List Char) (c : Char) (cs : List Char) :
    (dropStop? stop (c :: cs)).getD (c :: cs) =
      if c :: cs = stop then [] else c :: (dropStop? stop cs).getD cs := by
  -- The end is cut off just where what is left is the end itself.
  split
  · next hwhole =>
    have hnothing : c :: cs = [] ++ stop := hwhole
    rw [dropStop?_eq_some_iff.2 hnothing, Option.getD_some]
  · next hwhole =>
    cases hcs : dropStop? stop cs with
    | some front =>
      have hcons : c :: cs = (c :: front) ++ stop :=
        congrArg (c :: ·) (dropStop?_eq_some_iff.1 hcs)
      rw [dropStop?_eq_some_iff.2 hcons, Option.getD_some, Option.getD_some]
    | none =>
      have hcons : dropStop? stop (c :: cs) = none := by
        refine Option.eq_none_iff_forall_ne_some.2 fun front hfront => ?_
        have heq := dropStop?_eq_some_iff.1 hfront
        cases front with
        | nil => exact hwhole heq
        | cons d front =>
          rw [dropStop?_eq_some_iff.2 (List.cons.inj heq).2] at hcs
          cases hcs
      rw [hcons, Option.getD_none, Option.getD_none]

/-! ## Occurrences -/

/-- A part is found where the text holds it. -/
theorem occursIn_iff {part cs : List Char} : occursIn part cs = true ↔ part <:+: cs := by
  induction cs with
  | nil => rw [occursIn, List.isEmpty_iff, List.infix_nil]
  | cons c cs ih =>
    rw [occursIn, Bool.or_eq_true, List.isPrefixOf_iff_prefix, ih, List.infix_cons_iff]

end ApiCatalog.Text
