import TautShape.Crdt.Types
import TautShape.Lib.JsonGrammar
/-!
# JSON payloads of the text profile

The parser of the text profile, function by function, and the two payload encoders.  A
parser runs on the bytes from its position on.
-/

namespace TautShape.Crdt.Text

open TautShape.Lib
open TautShape.Lib.JsonGrammar (hexDigit)

/-- An object lists its fields in ascending order of their keys, which do not repeat. -/
inductive Json where
  | null
  | bool (value : Bool)
  | string (value : String)
  | array (values : List Json)
  | object (fields : List (String × Json))

namespace Json

def object? : Json → Option (List (String × Json))
  | .object fields => some fields
  | _ => none

def string? : Json → Option String
  | .string value => some value
  | _ => none

def bool? : Json → Option Bool
  | .bool value => some value
  | _ => none

end Json

/-- `BTreeMap::get` on the fields of an object. -/
def field (fields : List (String × Json)) (key : String) : Option Json := fields.lookup key

/-- `BTreeMap::insert` for a key that is not there. -/
def insertField (fields : List (String × Json)) (key : String) (value : Json) :
    List (String × Json) :=
  fields.takeWhile (fun p => (compare p.1 key).isLT) ++ (key, value) ::
    fields.dropWhile (fun p => (compare p.1 key).isLT)

/-! ## The parser -/

abbrev Parser (α : Type) : Type := StateT Bytes Option α

namespace Parser

/-- `self.bytes.get(self.pos)` -/
def peek : Parser (Option UInt8) := do return (← get).head?

/-- `self.pos += count` -/
def advance (count : Nat) : Parser Unit := modify (List.drop count)

def next : Parser UInt8 := do
  match ← get with
  | [] => failure
  | byte :: rest =>
      set rest
      return byte

/-- `u8::is_ascii_whitespace` -/
def isAsciiWhitespace (byte : UInt8) : Bool :=
  byte = 0x20 || byte = 0x09 || byte = 0x0a || byte = 0x0c || byte = 0x0d

def ws : Parser Unit := modify (List.dropWhile isAsciiWhitespace)

def take (byte : UInt8) : Parser Unit := do
  ws
  if (← peek) = some byte then advance 1 else failure

def literal (value : Bytes) (result : Json) : Parser Json := do
  if (← get).take value.length = value then
    advance value.length
    return result
  else
    failure

/-- `count` digits more, 4 in the source. -/
def hexDigits : Nat → Nat → Parser Nat
  | 0, value => return value
  | count + 1, value => do
      let byte ← next
      match hexDigit byte with
      | some digit => hexDigits count (value * 16 + digit)
      | none => failure

def hex4 : Parser Nat := hexDigits 4 0

def charFromU32 (value : Nat) : Parser Char :=
  if h : value.isValidChar then return Char.ofNatAux value h else failure

def unicodeEscape : Parser Char := do
  let first ← hex4
  if 0xd800 ≤ first ∧ first ≤ 0xdbff then
    if (← get).take 2 ≠ [0x5c, 0x75] then
      failure
    advance 2
    let second ← hex4
    if ¬ (0xdc00 ≤ second ∧ second ≤ 0xdfff) then
      failure
    charFromU32 (0x10000 + ((first - 0xd800) <<< 10) + second - 0xdc00)
  else
    charFromU32 first

def escape : Parser Char := do
  match ← next with
  | 0x22 => return '"'
  | 0x5c => return '\\'
  | 0x2f => return '/'
  | 0x62 => return '\x08'
  | 0x66 => return '\x0c'
  | 0x6e => return '\n'
  | 0x72 => return '\r'
  | 0x74 => return '\t'
  | 0x75 => unicodeEscape
  | _ => failure

/-- The first character of the rest, all of which must be UTF-8. -/
def character : Parser Char := do
  match String.fromUTF8? ⟨(← get).toArray⟩ with
  | none => failure
  | some rest =>
      match rest.toList with
      | [] => failure
      | character :: _ =>
          advance character.utf8Size
          return character

/-- The loop of `string_value`; every round takes at least one byte. -/
def characters : Nat → List Char → Parser String
  | 0, _ => failure
  | fuel + 1, output => do
      let before ← get
      let byte ← next
      if byte = 0x22 then
        return String.ofList output
      else if byte = 0x5c then
        characters fuel (output ++ [← escape])
      else if byte ≤ 0x1f then
        failure
      else if byte ≤ 0x7f then
        characters fuel (output ++ [Char.ofUInt8 byte])
      else
        set before
        characters fuel (output ++ [← character])

def stringValue : Parser String := do
  take 0x22
  characters ((← get).length + 1) []

/-- The loop of `array`; `element` is `value` one level down. -/
def elements (element : Parser Json) : Nat → List Json → Parser Json
  | 0, _ => failure
  | fuel + 1, values => do
      let value ← element
      ws
      match ← peek with
      | some 0x2c =>
          advance 1
          elements element fuel (values ++ [value])
      | some 0x5d =>
          advance 1
          return .array (values ++ [value])
      | _ => failure

def array (element : Parser Json) : Parser Json := do
  take 0x5b
  ws
  if (← peek) = some 0x5d then
    advance 1
    return .array []
  else
    elements element ((← get).length + 1) []

def members (element : Parser Json) : Nat → List (String × Json) → Parser Json
  | 0, _ => failure
  | fuel + 1, fields => do
      let key ← stringValue
      take 0x3a
      let value ← element
      if (field fields key).isSome then
        failure
      ws
      match ← peek with
      | some 0x2c =>
          advance 1
          members element fuel (insertField fields key value)
      | some 0x7d =>
          advance 1
          return .object (insertField fields key value)
      | _ => failure

def object (element : Parser Json) : Parser Json := do
  take 0x7b
  ws
  if (← peek) = some 0x7d then
    advance 1
    return .object []
  else
    members element ((← get).length + 1) []

/-- One level of nesting takes at least one byte. -/
def value : Nat → Parser Json
  | 0 => failure
  | depth + 1 => do
      ws
      match ← peek with
      | some 0x6e => literal "null".toUTF8.data.toList .null
      | some 0x74 => literal "true".toUTF8.data.toList (.bool true)
      | some 0x66 => literal "false".toUTF8.data.toList (.bool false)
      | some 0x22 => Json.string <$> stringValue
      | some 0x5b => array (value depth)
      | some 0x7b => object (value depth)
      | _ => failure

def parse (bytes : Bytes) : Option Json := do
  let (result, rest) ← (do ws; let result ← value (bytes.length + 1); ws; return result).run bytes
  if rest.isEmpty then some result else none

end Parser

/-! ## Encoders -/

/-- `format!("\\u{:04x}", value)` for a control character. -/
def controlEscape (character : Char) : String :=
  let digit (value : Nat) : Char := if value < 10 then Char.ofNat (0x30 + value)
    else Char.ofNat (0x61 + (value - 10))
  "\\u00" ++ String.ofList [digit (character.toNat / 16), digit (character.toNat % 16)]

def quotedChar (character : Char) : String :=
  match character with
  | '"' => "\\\""
  | '\\' => "\\\\"
  | '\n' => "\\n"
  | '\r' => "\\r"
  | '\t' => "\\t"
  | '\x08' => "\\b"
  | '\x0c' => "\\f"
  | value => if value < '\x20' then controlEscape value else value.toString

def quoted (value : String) : String :=
  "\"" ++ String.join (value.toList.map quotedChar) ++ "\""

/-- The `after` field of an insert. -/
def quotedOption (value : Option String) : String := (value.map quoted).getD "null"

def encodeTextInsert (atomId : String) (after : Option String) (text : String) : Bytes :=
  ("\x7b\"after\":" ++ quotedOption after ++ ",\"atom_id\":" ++ quoted atomId ++
    ",\"kind\":\"insert\",\"text\":" ++ quoted text ++ "\x7d").toUTF8.data.toList

def encodeTextDelete (atomId : String) : Bytes :=
  ("\x7b\"atom_id\":" ++ quoted atomId ++ ",\"kind\":\"delete\"\x7d").toUTF8.data.toList

end TautShape.Crdt.Text
