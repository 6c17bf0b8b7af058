/-!
# JSON values

The tree a JSON text stands for. Two things are kept that a plain tree would lose: the fields of
an object stay in their order with repeated keys, and a number stays as it was spelled. A string
with half of a surrogate pair is well formed but denotes no text; it is kept as `brokenText`, and
as a key it is `none`.
-/

namespace ApiCatalog

/-- A number as it is spelled: sign, digits before and behind the point, and the exponent with
its own sign. -/
structure Numeral where
  negative : Bool := false
  whole : List Char
  fraction : List Char := []
  exponent : Option (Bool × List Char) := none
deriving DecidableEq, Repr, Inhabited

namespace Numeral

/-- The number that decimal digits write. -/
def ofDigits (digits : List Char) : Nat :=
  digits.foldl (fun n d => n * 10 + (d.toNat - '0'.toNat)) 0

/-- The spelling of a natural number. -/
def ofNat (n : Nat) : Numeral := { whole := Nat.toDigits 10 n }

/-- The spelling of an integer. -/
def ofInt (n : Int) : Numeral := { negative := n < 0, whole := Nat.toDigits 10 n.natAbs }

/-- The integer, if the number has neither fraction nor exponent. -/
def toInt? (n : Numeral) : Option Int :=
  if n.fraction.isEmpty && n.exponent.isNone then
    let m : Int := ofDigits n.whole
    some (if n.negative then -m else m)
  else none

/-- The natural number, if the number has no sign, fraction or exponent. -/
def toNat? (n : Numeral) : Option Nat :=
  if n.negative then none else n.toInt?.map Int.toNat

/-- The number is below the largest double by at least half a step, so it rounds to a double. -/
def isInRange (n : Numeral) : Bool :=
  let significand := ofDigits (n.whole ++ n.fraction)
  let exponent : Int :=
    match n.exponent with
    | none => 0
    | some (true, digits) => -(ofDigits digits : Int)
    | some (false, digits) => ofDigits digits
  let scale : Int := exponent - n.fraction.length
  let magnitude : Int := (Nat.toDigits 10 significand).length + scale
  if significand = 0 || magnitude ≤ 308 then true
  else if magnitude > 309 then false
  else
    let bound := Nat.pow 2 1024 - Nat.pow 2 970
    if scale ≥ 0 then significand * Nat.pow 10 scale.toNat < bound
    else significand < bound * Nat.pow 10 (-scale).toNat

end Numeral

/-- The tree of a JSON text. -/
inductive Json where
  | null
  | bool (b : Bool)
  | number (n : Numeral)
  | text (s : String)
  /-- A string that denotes no text. -/
  | brokenText
  | array (items : List Json)
  | object (fields : List (Option String × Json))
deriving Repr, Inhabited

namespace Json

/-- A natural number. -/
def nat (n : Nat) : Json := .number (.ofNat n)

/-- An integer. -/
def int (n : Int) : Json := .number (.ofInt n)

/-- An array of texts. -/
def texts (items : List String) : Json := .array (items.map .text)

/-- An object with ordinary keys. -/
def record (fields : List (String × Json)) : Json :=
  .object (fields.map fun field => (some field.1, field.2))

mutual

/-- How many arrays and objects lie inside each other at the deepest place. -/
def nesting : Json → Nat
  | .array items => nestingOfItems items + 1
  | .object fields => nestingOfFields fields + 1
  | _ => 0

def nestingOfItems : List Json → Nat
  | [] => 0
  | item :: items => max (nesting item) (nestingOfItems items)

def nestingOfFields : List (Option String × Json) → Nat
  | [] => 0
  | (_, value) :: fields => max (nesting value) (nestingOfFields fields)

end

mutual

/-- Every string in the value denotes text and every number rounds to a double. -/
def isPlain : Json → Bool
  | .number n => n.isInRange
  | .brokenText => false
  | .array items => arePlainItems items
  | .object fields => arePlainFields fields
  | _ => true

def arePlainItems : List Json → Bool
  | [] => true
  | item :: items => isPlain item && arePlainItems items

def arePlainFields : List (Option String × Json) → Bool
  | [] => true
  | (key, value) :: fields => key.isSome && isPlain value && arePlainFields fields

end

end Json
end ApiCatalog
