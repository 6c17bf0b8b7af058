/-!
# Decoding UTF-8

Bytes are decoded character by character. Where no character starts, the longest piece that
could have started one, and at least one byte, is *broken*, and decoding goes on behind it; the
caller says what stands for a broken piece. `decode?` accepts bytes without broken pieces only.
-/

namespace ApiCatalog.Text

/-- How many bytes follow a first byte, and the range of the first of them; none if the byte
starts no character. -/
def sequenceOf? (b : Nat) : Option (Nat × Nat × Nat) :=
  if 0xC2 ≤ b && b ≤ 0xDF then some (1, 0x80, 0xBF)
  else if b = 0xE0 then some (2, 0xA0, 0xBF)
  else if b = 0xED then some (2, 0x80, 0x9F)
  else if 0xE1 ≤ b && b ≤ 0xEF then some (2, 0x80, 0xBF)
  else if b = 0xF0 then some (3, 0x90, 0xBF)
  else if b = 0xF4 then some (3, 0x80, 0x8F)
  else if 0xF1 ≤ b && b ≤ 0xF3 then some (3, 0x80, 0xBF)
  else none

/-- The character whose remaining bytes are `count` many, the first of them between `low` and
`high`, and whose leading bits are `bits`; and the bytes behind the character, or behind the
broken piece. -/
def continueChar (count low high bits : Nat) : List UInt8 → Option Char × List UInt8
  | [] => (if count = 0 then some (Char.ofNat bits) else none, [])
  | b :: rest =>
    match count with
    | 0 => (some (Char.ofNat bits), b :: rest)
    | count + 1 =>
      if low ≤ b.toNat && b.toNat ≤ high then
        continueChar count 0x80 0xBF (bits * 0x40 + (b.toNat - 0x80)) rest
      else (none, b :: rest)

/-- The character that starts with byte `b`, if it is whole, and the bytes behind it. -/
def decodeChar (b : UInt8) (rest : List UInt8) : Option Char × List UInt8 :=
  let n := b.toNat
  if n < 0x80 then (some (Char.ofNat n), rest)
  else
    match sequenceOf? n with
    | some (1, low, high) => continueChar 1 low high (n - 0xC0) rest
    | some (2, low, high) => continueChar 2 low high (n - 0xE0) rest
    | some (_, low, high) => continueChar 3 low high (n - 0xF0) rest
    | none => (none, rest)

theorem length_continueChar (count low high bits : Nat) (bytes : List UInt8) :
    (continueChar count low high bits bytes).2.length ≤ bytes.length := by
  induction bytes generalizing count low high bits with
  | nil => simp [continueChar]
  | cons b rest ih =>
    unfold continueChar
    cases count with
    | zero => simp
    | succ count =>
      simp only
      split
      · exact Nat.le_succ_of_le (ih _ _ _ _)
      · simp

theorem length_decodeChar (b : UInt8) (rest : List UInt8) :
    (decodeChar b rest).2.length ≤ rest.length := by
  unfold decodeChar
  simp only
  split
  · simp
  · split <;> first | exact length_continueChar _ _ _ _ _ | simp

/-- The characters of the bytes, `none` for each broken piece. -/
def decodePieces : List UInt8 → List (Option Char)
  | [] => []
  | b :: rest => (decodeChar b rest).1 :: decodePieces (decodeChar b rest).2
termination_by bytes => bytes.length
decreasing_by
  have := length_decodeChar b rest
  simp only [List.length_cons]
  omega

/-- The text of the bytes, with `broken` for each broken piece. -/
def decodeWith (broken : List Char) (bytes : List UInt8) : List Char :=
  (decodePieces bytes).flatMap fun piece => piece.elim broken ([·])

/-- The text of the bytes, with the replacement character for each broken piece. -/
def decodeLossy (bytes : List UInt8) : List Char := decodeWith ['\ufffd'] bytes

/-- The text of the bytes, if they have no broken piece. -/
def decode? (bytes : List UInt8) : Option (List Char) := (decodePieces bytes).mapM id

/-- The bytes of a text. -/
def encode (s : String) : List UInt8 := s.toList.flatMap String.utf8EncodeChar

end ApiCatalog.Text
