import ApiCatalog.Proofs.Text.Split
import ApiCatalog.Proofs.Text.Utf8

/-!
# What decoding with replacements keeps

Decoding may replace broken pieces, so different bytes can give one text. But a byte below 0x80 is
a character wherever it stands: the bytes on either side of it are decoded apart
(`decodeLossy_append_cons`). So cutting bytes at such a byte and cutting their text at its character
is the same (`splitOn_decodeLossy`). And bytes that give a text without a replacement are those of
that text (`flatMap_of_decodeLossy`).
-/

namespace ApiCatalog.Text

/-! ## One character -/

/-- What a first byte that starts a longer character says of the bytes that follow. -/
theorem sequenceOf?_eq_some {n count low high : Nat} (h : sequenceOf? n = some (count, low, high)) :
    (count = 1 ∧ 0xC2 ≤ n ∧ n ≤ 0xDF ∧ low = 0x80 ∧ high = 0xBF) ∨
      (count = 2 ∧ 0xE0 ≤ n ∧ n ≤ 0xEF ∧ 0x80 ≤ low ∧ high ≤ 0xBF ∧
        (n = 0xE0 → 0xA0 ≤ low) ∧ (n = 0xED → high ≤ 0x9F)) ∨
      (count = 3 ∧ 0xF0 ≤ n ∧ n ≤ 0xF4 ∧ 0x80 ≤ low ∧ high ≤ 0xBF ∧
        (n = 0xF0 → 0x90 ≤ low) ∧ (n = 0xF4 → high ≤ 0x8F)) := by
  unfold sequenceOf? at h
  simp only [Bool.and_eq_true, decide_eq_true_eq] at h
  repeat' split at h
  all_goals
    first
    | cases h
      omega
    | cases h

theorem low_of_sequenceOf? {n count low high : Nat} (h : sequenceOf? n = some (count, low, high)) :
    0x80 ≤ low := by
  have hcases := sequenceOf?_eq_some h
  omega

/-- A byte below 0x80 ends a character, as the end of the bytes does. -/
theorem continueChar_append {b : UInt8} (hb : b.toNat < 0x80) {count low high bits : Nat}
    (hlow : 0x80 ≤ low) (front back : List UInt8) :
    continueChar count low high bits (front ++ b :: back) =
      ((continueChar count low high bits front).1,
        (continueChar count low high bits front).2 ++ b :: back) := by
  induction front generalizing count low bits high with
  | nil =>
    cases count with
    | zero => rfl
    | succ count =>
      have hout : ¬(low ≤ b.toNat && b.toNat ≤ high) = true := by simp; omega
      simp [continueChar, hout]
  | cons first front ih =>
    cases count with
    | zero => rfl
    | succ count =>
      simp only [List.cons_append, continueChar]
      split
      · exact ih (by omega)
      · rfl

/-- A byte below 0x80 ends a character, so what is behind it makes no difference. -/
theorem decodeChar_append {b : UInt8} (hb : b.toNat < 0x80) (first : UInt8)
    (front back : List UInt8) :
    decodeChar first (front ++ b :: back) =
      ((decodeChar first front).1, (decodeChar first front).2 ++ b :: back) := by
  unfold decodeChar
  dsimp only
  split
  · rfl
  split <;> first | rfl | exact continueChar_append hb (low_of_sequenceOf? ‹_›) front back

/-- The bytes on either side of a byte below 0x80 are decoded apart. -/
theorem decodePieces_append_cons {b : UInt8} (hb : b.toNat < 0x80) (front back : List UInt8) :
    decodePieces (front ++ b :: back) =
      decodePieces front ++ some (Char.ofNat b.toNat) :: decodePieces back := by
  induction front using decodePieces.induct with
  | case1 =>
    have hfirst : decodeChar b back = (some (Char.ofNat b.toNat), back) := by
      simp [decodeChar, hb]
    rw [List.nil_append, decodePieces.eq_2, hfirst, decodePieces.eq_1, List.nil_append]
  | case2 first front ih =>
    rw [List.cons_append, decodePieces, decodeChar_append hb, ih, decodePieces, List.cons_append]

/-- A character is read off the bytes that are written for it. -/
theorem continueChar_succ_eq_some_iff {count low high bits : Nat} {bytes rest : List UInt8}
    {c : Char} :
    continueChar (count + 1) low high bits bytes = (some c, rest) ↔
      ∃ b more, bytes = b :: more ∧ low ≤ b.toNat ∧ b.toNat ≤ high ∧
        continueChar count 0x80 0xBF (bits * 0x40 + (b.toNat - 0x80)) more = (some c, rest) := by
  cases bytes with
  | nil => simp [continueChar]
  | cons b more =>
    simp only [continueChar]
    split
    · next hin =>
      simp only [Bool.and_eq_true, decide_eq_true_eq] at hin
      simp [hin]
    · next hout =>
      simp only [Bool.and_eq_true, decide_eq_true_eq, not_and] at hout
      constructor
      · intro h
        cases h
      · rintro ⟨b', more', heq, hlow, hhigh, -⟩
        cases heq
        exact absurd hhigh (hout hlow)

theorem continueChar_zero_eq_some_iff {low high bits : Nat} {bytes rest : List UInt8} {c : Char} :
    continueChar 0 low high bits bytes = (some c, rest) ↔ Char.ofNat bits = c ∧ bytes = rest := by
  rw [continueChar_zero, Prod.mk.injEq, Option.some_inj]

theorem toNat_val_ofNat {n : Nat} (h : n.isValidChar) : (Char.ofNat n).val.toNat = n := by
  rw [Char.ofNat, dif_pos h]
  rfl

theorem eq_ofNat {b : UInt8} {n : Nat} (h : n = b.toNat) : UInt8.ofNat n = b := by
  rw [h, UInt8.ofNat_toNat]

/-- The bytes that a character is read off are those that are written for it. -/
theorem bytes_of_decodeChar {b : UInt8} {bytes rest : List UInt8} {c : Char}
    (h : decodeChar b bytes = (some c, rest)) :
    b :: bytes = String.utf8EncodeChar c ++ rest := by
  -- By the number of bytes the first one announces; the encoder takes the same number back.
  unfold decodeChar at h
  dsimp only at h
  split at h
  · next hascii =>
    cases h
    have hval := toNat_val_ofNat (n := b.toNat) (.inl (by omega))
    unfold String.utf8EncodeChar
    simp only [hval]
    rw [if_pos (by omega), eq_ofNat rfl]
    rfl
  split at h
  · next hseq =>
    obtain ⟨-, hmin, hmax, rfl, rfl⟩ : _ := (sequenceOf?_eq_some hseq).resolve_right (by omega)
    simp only [continueChar_succ_eq_some_iff, continueChar_zero_eq_some_iff] at h
    obtain ⟨m, _, rfl, hlow, hhigh, rfl, rfl⟩ := h
    have hval := toNat_val_ofNat (n := (b.toNat - 0xC0) * 0x40 + (m.toNat - 0x80))
      (.inl (by omega))
    unfold String.utf8EncodeChar
    simp only [hval]
    rw [if_neg (by omega), if_pos (by omega), eq_ofNat (b := b) (by omega),
      eq_ofNat (b := m) (by omega)]
    rfl
  · next hseq =>
    obtain ⟨-, hmin, hmax, hfrom, hto, hfirst, hlast⟩ : _ :=
      ((sequenceOf?_eq_some hseq).resolve_left (by omega)).resolve_right (by omega)
    simp only [continueChar_succ_eq_some_iff, continueChar_zero_eq_some_iff] at h
    obtain ⟨m, _, rfl, hlow, hhigh, k, _, rfl, hlow', hhigh', rfl, rfl⟩ := h
    have hval := toNat_val_ofNat
      (n := ((b.toNat - 0xE0) * 0x40 + (m.toNat - 0x80)) * 0x40 + (k.toNat - 0x80))
      (by unfold Nat.isValidChar; omega)
    unfold String.utf8EncodeChar
    simp only [hval]
    rw [if_neg (by omega), if_neg (by omega), if_pos (by omega), eq_ofNat (b := b) (by omega),
      eq_ofNat (b := m) (by omega), eq_ofNat (b := k) (by omega)]
    rfl
  · next hone htwo hseq =>
    obtain ⟨-, hmin, hmax, hfrom, hto, hfirst, hlast⟩ : _ :=
      ((sequenceOf?_eq_some hseq).resolve_left fun h => hone h.1).resolve_left fun h => htwo h.1
    simp only [continueChar_succ_eq_some_iff, continueChar_zero_eq_some_iff] at h
    obtain ⟨m, _, rfl, hlow, hhigh, k, _, rfl, hlow', hhigh', l, _, rfl, hlow'', hhigh'', rfl,
      rfl⟩ := h
    have hval := toNat_val_ofNat
      (n := (((b.toNat - 0xF0) * 0x40 + (m.toNat - 0x80)) * 0x40 + (k.toNat - 0x80)) * 0x40 +
        (l.toNat - 0x80)) (by unfold Nat.isValidChar; omega)
    unfold String.utf8EncodeChar
    simp only [hval]
    rw [if_neg (by omega), if_neg (by omega), if_neg (by omega), eq_ofNat (b := b) (by omega),
      eq_ofNat (b := m) (by omega), eq_ofNat (b := k) (by omega), eq_ofNat (b := l) (by omega)]
    rfl
  · cases h

/-- What is left behind a character is the end of the bytes. -/
theorem suffix_continueChar (count low high bits : Nat) (bytes : List UInt8) :
    (continueChar count low high bits bytes).2 <:+ bytes := by
  induction bytes generalizing count low high bits with
  | nil => simp [continueChar]
  | cons b rest ih =>
    unfold continueChar
    cases count with
    | zero => exact List.suffix_rfl
    | succ count =>
      dsimp only
      split
      · exact (ih _ _ _ _).trans (List.suffix_cons b rest)
      · exact List.suffix_rfl

/-- Decoding a character leaves an end of the bytes. -/
theorem suffix_decodeChar (b : UInt8) (rest : List UInt8) : (decodeChar b rest).2 <:+ rest := by
  unfold decodeChar
  dsimp only
  split
  · exact List.suffix_rfl
  split <;> first | exact suffix_continueChar _ _ _ _ _ | exact List.suffix_rfl

/-! ## Whole texts -/

variable {bytes : List UInt8} {c : Char}

/-- Bytes without a broken piece are those of their text. -/
theorem flatMap_of_decodePieces (h : none ∉ decodePieces bytes) :
    (decodePieces bytes).flatMap (fun piece => piece.elim [] String.utf8EncodeChar) = bytes := by
  induction bytes using decodePieces.induct with
  | case1 => rw [decodePieces, List.flatMap_nil]
  | case2 b rest ih =>
    rw [decodePieces, List.mem_cons, not_or] at h
    obtain ⟨c, hc⟩ := Option.ne_none_iff_exists'.1 (Ne.symm h.1)
    have hwhole := bytes_of_decodeChar
      (Prod.ext hc rfl : decodeChar b rest = (some c, (decodeChar b rest).2))
    rw [decodePieces, List.flatMap_cons, ih h.2, hc, hwhole]
    rfl

/-- A replacement stands for every broken piece. -/
theorem none_not_mem_decodePieces (h : '\ufffd' ∉ decodeLossy bytes) : none ∉ decodePieces bytes :=
  fun hnone => h (List.mem_flatMap.2 ⟨none, hnone, List.mem_singleton_self _⟩)

/-- Bytes whose text has no replacement are those of their text. -/
theorem flatMap_of_decodeLossy (h : '\ufffd' ∉ decodeLossy bytes) :
    (decodeLossy bytes).flatMap String.utf8EncodeChar = bytes := by
  have hnone := none_not_mem_decodePieces h
  refine Eq.trans ?_ (flatMap_of_decodePieces hnone)
  unfold decodeLossy decodeWith
  rw [List.flatMap_assoc]
  refine List.flatMap_congr fun piece hpiece => ?_
  cases piece with
  | none => exact absurd hpiece hnone
  | some c => exact List.flatMap_singleton ..

/-- Only the bytes of a text without a replacement give that text. -/
theorem decodeLossy_eq_iff {s : String} (h : '\ufffd' ∉ s.toList) :
    decodeLossy bytes = s.toList ↔ bytes = encode s := by
  constructor
  · intro hs
    rw [encode, ← hs, flatMap_of_decodeLossy (hs ▸ h)]
  · rintro rfl
    exact decodeWith_encode _ s

/-! ## Bytes below 0x80 -/

/-- The byte of a character below 0x80. -/
def asciiByte (c : Char) : UInt8 := UInt8.ofNat c.toNat

theorem toNat_asciiByte (hc : c.toNat < 0x80) : (asciiByte c).toNat = c.toNat :=
  toNat_ofNat (by omega)

theorem utf8EncodeChar_of_lt (hc : c.toNat < 0x80) : String.utf8EncodeChar c = [asciiByte c] := by
  have hval : c.val.toNat < 0x80 := hc
  unfold String.utf8EncodeChar
  simp only
  rw [if_pos (by omega)]
  rfl

@[simp] theorem decodeLossy_nil : decodeLossy [] = [] := by
  simp [decodeLossy, decodeWith, decodePieces]

/-- The bytes on either side of a byte below 0x80 are decoded apart. -/
theorem decodeLossy_append_cons (hc : c.toNat < 0x80) (front back : List UInt8) :
    decodeLossy (front ++ asciiByte c :: back) = decodeLossy front ++ c :: decodeLossy back := by
  have hbyte : (asciiByte c).toNat < 0x80 := by rwa [toNat_asciiByte hc]
  have hchar : Char.ofNat (asciiByte c).toNat = c := by
    rw [toNat_asciiByte hc, Char.ofNat_toNat]
  unfold decodeLossy decodeWith
  rw [decodePieces_append_cons hbyte, hchar, List.flatMap_append, List.flatMap_cons]
  rfl

/-- A byte below 0x80 is a character by itself. -/
theorem decodeLossy_cons (hc : c.toNat < 0x80) (back : List UInt8) :
    decodeLossy (asciiByte c :: back) = c :: decodeLossy back := by
  rw [← List.nil_append (asciiByte c :: back), decodeLossy_append_cons hc, decodeLossy_nil,
    List.nil_append]

/-- A character below 0x80 occurs where its byte does. -/
theorem mem_decodeLossy_iff (hc : c.toNat < 0x80) :
    c ∈ decodeLossy bytes ↔ asciiByte c ∈ bytes := by
  constructor
  · intro h
    obtain ⟨piece, hpiece, hmem⟩ := List.mem_flatMap.1 h
    have hreplacement : c ≠ '\ufffd' := by
      rintro rfl
      exact absurd hc (by decide)
    obtain rfl : piece = some c := by
      cases piece with
      | none => exact absurd (List.mem_singleton.1 hmem) hreplacement
      | some d => rw [List.mem_singleton.1 hmem]
    -- On the pieces: the character comes from the first one or from those behind it.
    clear h hmem
    induction bytes using decodePieces.induct with
    | case1 =>
      rw [decodePieces] at hpiece
      cases hpiece
    | case2 b rest ih =>
      rw [decodePieces] at hpiece
      rcases List.mem_cons.1 hpiece with hfirst | hrest
      · have hwhole := bytes_of_decodeChar (Prod.ext hfirst.symm rfl)
        rw [hwhole, utf8EncodeChar_of_lt hc]
        exact List.mem_append_left _ (List.mem_singleton_self _)
      · exact List.mem_cons_of_mem _ ((suffix_decodeChar b rest).subset (ih hrest))
  · intro h
    obtain ⟨front, back, rfl⟩ := List.append_of_mem h
    rw [decodeLossy_append_cons hc]
    simp

/-- The text of bytes begins with a character below 0x80 where they begin with its byte. -/
theorem head?_decodeLossy_iff (hc : c.toNat < 0x80) :
    (decodeLossy bytes).head? = some c ↔ bytes.head? = some (asciiByte c) := by
  constructor
  · intro h
    cases bytes with
    | nil =>
      rw [decodeLossy_nil] at h
      cases h
    | cons b rest =>
      -- The replacement character is not ASCII, so a piece that is not read gives no `c`.
      have hreplacement : c ≠ '\ufffd' := by
        rintro rfl
        exact absurd hc (by decide)
      have hfirst : (decodeChar b rest).1 = some c := by
        unfold decodeLossy decodeWith at h
        rw [decodePieces, List.flatMap_cons] at h
        cases hread : (decodeChar b rest).1 with
        | none =>
          rw [hread] at h
          exact absurd (Option.some.inj h).symm hreplacement
        | some d =>
          rw [hread] at h
          exact h
      have hwhole := bytes_of_decodeChar (Prod.ext hfirst rfl)
      rw [hwhole, utf8EncodeChar_of_lt hc]
      rfl
  · intro h
    cases bytes with
    | nil => cases h
    | cons b rest =>
      obtain rfl := Option.some.inj h
      rw [decodeLossy_cons hc]
      rfl

/-- Joining pieces at such a byte is joining their texts at its character. -/
theorem joinWith_decodeLossy (hc : c.toNat < 0x80) (pieces : List (List UInt8)) :
    decodeLossy (joinWith (asciiByte c) pieces) = joinWith c (pieces.map decodeLossy) := by
  induction pieces with
  | nil => exact decodeLossy_nil
  | cons piece pieces ih =>
    cases pieces with
    | nil => rfl
    | cons next pieces =>
      rw [joinWith_cons_cons, decodeLossy_append_cons hc, ih, List.map_cons]
      exact (joinWith_cons_cons _ _ _).symm

/-- Cutting bytes at a byte below 0x80 is cutting their text at its character. -/
theorem splitOn_decodeLossy (hc : c.toNat < 0x80) (bytes : List UInt8) :
    splitOn c (decodeLossy bytes) = (splitOn (asciiByte c) bytes).map decodeLossy := by
  have hpieces : ∀ piece ∈ (splitOn (asciiByte c) bytes).map decodeLossy, c ∉ piece := by
    intro piece hpiece
    obtain ⟨raw, hraw, rfl⟩ := List.mem_map.1 hpiece
    exact fun hmem => (mem_of_mem_splitOn hraw ((mem_decodeLossy_iff hc).1 hmem)).2 rfl
  have hjoined : joinWith (asciiByte c) (splitOn (asciiByte c) bytes) = bytes := joinWith_splitOn _
  conv_lhs => rw [← hjoined]
  rw [joinWith_decodeLossy hc, splitOn_joinWith (by simp [splitOn_ne_nil]) hpieces]

end ApiCatalog.Text
