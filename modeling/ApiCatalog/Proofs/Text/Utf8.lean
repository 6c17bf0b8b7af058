import ApiCatalog.Text.Utf8

/-!
# Text survives its bytes

The bytes of a text decode to the text, whatever stands for broken pieces. A first byte says how
many bytes follow and in which range the first of them lies (`sequenceOf?`); every byte that
follows gives six bits (`continueChar_cons`). The range only cuts off what no character is written
as, so a byte that was written always lies in it.
-/

namespace ApiCatalog.Text

/-! ## One character -/

theorem toNat_ofNat {m : Nat} (hm : m < 256) : (UInt8.ofNat m).toNat = m :=
  UInt8.toNat_ofNat_of_lt' hm

theorem continueChar_zero (low high bits : Nat) (bytes : List UInt8) :
    continueChar 0 low high bits bytes = (some (Char.ofNat bits), bytes) := by
  cases bytes <;> simp [continueChar]

theorem continueChar_cons {count low high bits m : Nat} (bytes : List UInt8) (hm : m < 256)
    (hlow : low ≤ m) (hhigh : m ≤ high) :
    continueChar (count + 1) low high bits (UInt8.ofNat m :: bytes) =
      continueChar count 0x80 0xBF (bits * 0x40 + (m - 0x80)) bytes := by
  have hnat := toNat_ofNat hm
  simp [continueChar, hnat, hlow, hhigh]

/-- The first byte of a character of three bytes. -/
theorem sequenceOf?_three {n : Nat} (hmin : 0x800 ≤ n) (hmax : n < 0x10000)
    (hvalid : n < 0xD800 ∨ 0xDFFF < n) :
    ∃ low high, sequenceOf? (n / 4096 % 16 + 0xE0) = some (2, low, high) ∧
      low ≤ n / 64 % 64 + 0x80 ∧ n / 64 % 64 + 0x80 ≤ high := by
  have hfirst : n / 4096 < 16 := by omega
  unfold sequenceOf?
  simp only [Bool.and_eq_true, decide_eq_true_eq]
  rw [if_neg (by omega)]
  split
  · exact ⟨_, _, rfl, by omega, by omega⟩
  split
  · exact ⟨_, _, rfl, by omega, by omega⟩
  rw [if_pos (by omega)]
  exact ⟨_, _, rfl, by omega, by omega⟩

/-- The first byte of a character of four bytes. -/
theorem sequenceOf?_four {n : Nat} (hmin : 0x10000 ≤ n) (hmax : n < 0x110000) :
    ∃ low high, sequenceOf? (n / 262144 % 8 + 0xF0) = some (3, low, high) ∧
      low ≤ n / 4096 % 64 + 0x80 ∧ n / 4096 % 64 + 0x80 ≤ high := by
  have hfirst : n / 262144 < 5 := by omega
  unfold sequenceOf?
  simp only [Bool.and_eq_true, decide_eq_true_eq]
  rw [if_neg (by omega), if_neg (by omega), if_neg (by omega), if_neg (by omega)]
  split
  · exact ⟨_, _, rfl, by omega, by omega⟩
  split
  · exact ⟨_, _, rfl, by omega, by omega⟩
  rw [if_pos (by omega)]
  exact ⟨_, _, rfl, by omega, by omega⟩

/-- The bytes of a character are read as that character, whatever follows. -/
theorem decodeChar_utf8EncodeChar (c : Char) : ∃ b more, String.utf8EncodeChar c = b :: more ∧
    ∀ bytes, decodeChar b (more ++ bytes) = (some c, bytes) := by
  have hvalid : c.val.toNat < 0xD800 ∨ 0xDFFF < c.val.toNat ∧ c.val.toNat < 0x110000 := c.valid
  have hchar : Char.ofNat c.val.toNat = c := Char.ofNat_toNat c
  unfold String.utf8EncodeChar
  generalize c.val.toNat = n at hvalid hchar
  simp only
  -- The four lengths of a character.
  split
  · refine ⟨_, _, rfl, fun bytes => ?_⟩
    have hnat := toNat_ofNat (m := n) (by omega)
    unfold decodeChar
    rw [hnat, if_pos (by omega), hchar]
    rfl
  split
  · refine ⟨_, _, rfl, fun bytes => ?_⟩
    have hnat := toNat_ofNat (m := n / 64 % 32 + 0xC0) (by omega)
    have hseq : sequenceOf? (n / 64 % 32 + 0xC0) = some (1, 0x80, 0xBF) := by
      unfold sequenceOf?
      rw [if_pos (by simp; omega)]
    have hbits : (n / 64 % 32 + 0xC0 - 0xC0) * 0x40 + (n % 64 + 0x80 - 0x80) = n := by omega
    unfold decodeChar
    rw [hnat, if_neg (by omega), hseq]
    simp only [List.cons_append, List.nil_append]
    rw [continueChar_cons _ (by omega) (by omega) (by omega), continueChar_zero, hbits, hchar]
  split
  · refine ⟨_, _, rfl, fun bytes => ?_⟩
    have hnat := toNat_ofNat (m := n / 4096 % 16 + 0xE0) (by omega)
    obtain ⟨low, high, hseq, hlow, hhigh⟩ :=
      sequenceOf?_three (n := n) (by omega) (by omega) (by omega)
    have hbits : ((n / 4096 % 16 + 0xE0 - 0xE0) * 0x40 + (n / 64 % 64 + 0x80 - 0x80)) * 0x40 +
        (n % 64 + 0x80 - 0x80) = n := by omega
    unfold decodeChar
    rw [hnat, if_neg (by omega), hseq]
    simp only [List.cons_append, List.nil_append]
    rw [continueChar_cons _ (by omega) hlow hhigh,
      continueChar_cons _ (by omega) (by omega) (by omega), continueChar_zero, hbits, hchar]
  · refine ⟨_, _, rfl, fun bytes => ?_⟩
    have hnat := toNat_ofNat (m := n / 262144 % 8 + 0xF0) (by omega)
    obtain ⟨low, high, hseq, hlow, hhigh⟩ := sequenceOf?_four (n := n) (by omega) (by omega)
    have hbits : (((n / 262144 % 8 + 0xF0 - 0xF0) * 0x40 + (n / 4096 % 64 + 0x80 - 0x80)) * 0x40 +
        (n / 64 % 64 + 0x80 - 0x80)) * 0x40 + (n % 64 + 0x80 - 0x80) = n := by omega
    unfold decodeChar
    rw [hnat, if_neg (by omega), hseq]
    simp only [List.cons_append, List.nil_append]
    rw [continueChar_cons _ (by omega) hlow hhigh,
      continueChar_cons _ (by omega) (by omega) (by omega),
      continueChar_cons _ (by omega) (by omega) (by omega), continueChar_zero, hbits, hchar]

/-! ## Whole texts -/

theorem decodePieces_flatMap (cs : List Char) :
    decodePieces (cs.flatMap String.utf8EncodeChar) = cs.map some := by
  induction cs with
  | nil => rw [List.flatMap_nil, decodePieces, List.map_nil]
  | cons c cs ih =>
    obtain ⟨b, more, hbytes, hread⟩ := decodeChar_utf8EncodeChar c
    rw [List.flatMap_cons, hbytes, List.cons_append, decodePieces, hread, ih, List.map_cons]

/-- The bytes of a text hold no broken piece, and decode to the text. -/
theorem decodeWith_encode (broken : List Char) (s : String) :
    decodeWith broken (encode s) = s.toList := by
  unfold decodeWith
  rw [encode, decodePieces_flatMap, List.flatMap_map]
  simp

/-- The bytes of a text have no broken piece. -/
theorem decode?_encode (s : String) : decode? (encode s) = some s.toList := by
  unfold decode?
  rw [encode, decodePieces_flatMap]
  induction s.toList with
  | nil => rfl
  | cons c cs ih => simp only [List.map_cons, List.mapM_cons, ih, id, Option.bind_eq_bind,
      Option.bind_some, Option.pure_def]

end ApiCatalog.Text
