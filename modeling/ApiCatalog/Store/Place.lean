import ApiCatalog.Error
import ApiCatalog.Json.Reader

/-!
# Where a database lies

The engine reads the text of a place as the path of a file, or with `file:` in front as an address:
a host that is empty or this one, a path with bytes written as `%` and two digits, and options. A
database without a name, and one that is called `:memory:`, lies in no file.
-/

namespace ApiCatalog

/-- Where a database lies. -/
inductive DatabasePlace where
  | file (path : RawPath)
  /-- In no file, so that it is gone with the connection. -/
  | memory
deriving DecidableEq, Repr, Inhabited

namespace DatabasePlace

/-- The place of a name. -/
def ofName (name : RawPath) : DatabasePlace :=
  if name = [] ∨ name = Text.encode ":memory:" then .memory else .file name

/-- Bytes with what `%` and two hexadecimal digits write in their place. -/
def unescape : List UInt8 → List UInt8
  | 0x25 :: high :: low :: rest =>
    match Json.hexDigit? (Char.ofNat high.toNat), Json.hexDigit? (Char.ofNat low.toNat) with
    | some h, some l => .ofNat (16 * h + l) :: unescape rest
    | _, _ => 0x25 :: unescape (high :: low :: rest)
  | b :: rest => b :: unescape rest
  | [] => []

/-- The bytes of an address without the host in front, which can only be this one. -/
def dropHost : List UInt8 → Except StoreProblem (List UInt8)
  | 0x2F :: 0x2F :: rest =>
    let host := rest.takeWhile (· != FilePath.slash)
    if host = [] ∨ host = Text.encode "localhost" then .ok (rest.drop host.length)
    else .error (.badHost (FilePath.display host))
  | bytes => .ok bytes

/-- The place of an address, `file:` in front of it apart. -/
def ofAddress (address : List UInt8) : Except StoreProblem DatabasePlace := do
  let address := address.takeWhile (· != 0x23)
  let path ← dropHost (address.takeWhile (· != 0x3F))
  let options := Text.splitOn 0x26 ((address.dropWhile (· != 0x3F)).drop 1)
  return if Text.encode "mode=memory" ∈ options then .memory else ofName (unescape path)

/-- The place that a text stands for. -/
def ofText (text : String) : Except StoreProblem DatabasePlace :=
  let bytes := Text.encode text
  if (Text.encode "file:").isPrefixOf bytes then ofAddress (bytes.drop 5) else .ok (ofName bytes)

end DatabasePlace
end ApiCatalog
