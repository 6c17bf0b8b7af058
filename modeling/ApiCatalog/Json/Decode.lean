import ApiCatalog.Json.Reader

/-!
# Decoding JSON values

A record is decoded from an object, whose unknown fields are skipped and whose known ones may
occur once, or from an array that lists the fields in their order and may stop early. Both forms
come down to the values of the known fields in order, each present or absent; the decoder of a
field says what an absent one means.
-/

namespace ApiCatalog.Json

/-- The values under a key, in order. -/
def valuesOf (key : String) (fields : List (Option String × Json)) : List Json :=
  (fields.filter fun field => field.1 == some key).map Prod.snd

/-- The value under a key that may occur once. -/
def single? (key : String) (fields : List (Option String × Json)) : Option (Option Json) :=
  match valuesOf key fields with
  | [] => some none
  | [value] => some (some value)
  | _ => none

/-- The values of the fields named, in their order, from an object or an array. -/
def members? (names : List String) : Json → Option (List (Option Json))
  | .object fields =>
    if fields.all (·.1.isSome) then names.mapM (single? · fields) else none
  | .array items =>
    if items.length ≤ names.length then
      some (items.map some ++ List.replicate (names.length - items.length) none)
    else none
  | _ => none

/-- A text. -/
def text? : Json → Option String
  | .text s => some s
  | _ => none

/-- A truth value. -/
def bool? : Json → Option Bool
  | .bool b => some b
  | _ => none

/-- An array whose items all decode. -/
def list? {α : Type} (item : Json → Option α) : Json → Option (List α)
  | .array items => items.mapM item
  | _ => none

/-- An object whose values all decode, in order and with repeated keys. -/
def entries? {α : Type} (value : Json → Option α) : Json → Option (List (String × α))
  | .object fields =>
    fields.mapM fun field => do
      let key ← field.1
      let v ← value field.2
      return (key, v)
  | _ => none

/-- A field that must be there. -/
def required {α : Type} (decode : Json → Option α) (value : Option Json) : Option α :=
  value.bind decode

/-- A field that stands for `absent` when it is missing. -/
def orElse {α : Type} (absent : α) (decode : Json → Option α) : Option Json → Option α
  | none => some absent
  | some value => decode value

/-- A field that may be missing or null. -/
def optional {α : Type} (decode : Json → Option α) : Option Json → Option (Option α)
  | none | some .null => some none
  | some value => (decode value).map some

end ApiCatalog.Json
