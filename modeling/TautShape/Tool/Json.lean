import TautShape.Log.Types
import TautShape.Lib.JsonGrammar
import TautShape.Lib.Fields
/-!
# The tool's JSON

The value, the writer and the reader of `json.rs`.  The reader runs on the bytes from its
position on, and knows how many bytes there are in all, which is what its messages count
from.
-/

namespace TautShape.Tool

open TautShape.Lib TautShape.Lib.Utf8
open TautShape.Lib.JsonGrammar (hexDigit lowerHex)
open TautShape.Log (Bytes)

/-- Numbers are kept as their source text.  An object lists its fields in ascending order
of their keys, which do not repeat. -/
inductive Json where
  | null
  | bool (value : Bool)
  | num (text : String)
  | str (value : String)
  | arr (values : List Json)
  | obj (fields : List (String × Json))

namespace Json

/-- `BTreeMap::insert` -/
def insertField (fields : List (String × Json)) (key : String) (value : Json) :
    List (String × Json) :=
  fields.takeWhile (fun p => (compare p.1 key).isLT) ++ (key, value) ::
    fields.dropWhile (fun p => (compare p.1 key).isLE)

/-! ## Accessors -/

def isWhitespace (c : Char) : Bool :=
  let n := c.toNat
  (0x09 ≤ n && n ≤ 0x0d) || n = 0x20 || n = 0x85 || n = 0xa0 || n = 0x1680 ||
    (0x2000 ≤ n && n ≤ 0x200a) || n = 0x2028 || n = 0x2029 || n = 0x202f || n = 0x205f ||
    n = 0x3000

def trim (s : String) : List Char :=
  ((s.toList.dropWhile isWhitespace).reverse.dropWhile isWhitespace).reverse

def decimal (digits : List Char) : Option Nat :=
  if digits.isEmpty ∨ ¬ digits.all fun c => '0' ≤ c ∧ c ≤ '9' then none
  else some (digits.foldl (fun n c => n * 10 + (c.toNat - 0x30)) 0)

def parseI64 (s : List Char) : Option Int := do
  let n ← match s with
    | '-' :: digits => (decimal digits).map fun n => -(n : Int)
    | '+' :: digits => (decimal digits).map Int.ofNat
    | digits => (decimal digits).map Int.ofNat
  if -2 ^ 63 ≤ n ∧ n < 2 ^ 63 then some n else none

def get (v : Json) (key : String) : Option Json :=
  match v with
  | .obj fields => fields.lookup key
  | _ => none

def asStr : Json → Option String
  | .str value => some value
  | _ => none

def asI64 : Json → Option Int
  | .num text => parseI64 (trim text)
  | .str value => parseI64 (trim value)
  | _ => none

def asArr : Json → Option (List Json)
  | .arr values => some values
  | _ => none

/-! ## The writer -/

/-- What `write_json_string` puts out for a character. -/
def writeChar (c : Char) : List Char :=
  match c with
  | '"' => ['\\', '"']
  | '\\' => ['\\', '\\']
  | '\n' => ['\\', 'n']
  | '\r' => ['\\', 'r']
  | '\t' => ['\\', 't']
  | c =>
      if c.toNat < 0x20 then
        ['\\', 'u', '0', '0', lowerHex (c.toNat / 16), lowerHex (c.toNat % 16)]
      else [c]

def writeJsonString (v : String) : List Char := '"' :: v.toList.flatMap writeChar ++ ['"']

mutual

def write : Json → List Char
  | .null => "null".toList
  | .bool b => if b then "true".toList else "false".toList
  | .num s => s.toList
  | .str s => writeJsonString s
  | .arr a => '[' :: writeValues false a ++ [']']
  | .obj m => '\x7b' :: writeFields false m ++ ['\x7d']

/-- The loop over an array; from the second value on a comma is due. -/
def writeValues (due : Bool) : List Json → List Char
  | [] => []
  | v :: rest => (if due then [','] else []) ++ write v ++ writeValues true rest

def writeFields (due : Bool) : List (String × Json) → List Char
  | [] => []
  | (k, v) :: rest =>
      (if due then [','] else []) ++ writeJsonString k ++ ':' :: write v ++ writeFields true rest

end

/-- `Display` -/
def toString (v : Json) : String := String.ofList (write v)

end Json

/-! ## The reader -/

/-- How the reader ends without a value: with a message, in a subtraction below zero, or, which
the source has no counterpart of, out of fuel. -/
inductive Fault where
  | error (message : String)
  | overflow
  | outOfFuel
deriving DecidableEq, Repr

abbrev JsonParser (α : Type) : Type := ReaderT Nat (StateT Bytes (Except Fault)) α

namespace JsonParser

def fail {α : Type} (message : String) : JsonParser α := throw (.error message)

def pos : JsonParser Nat := do return (← read) - (← get).length

/-- `self.bytes.get(self.pos)` -/
def peek : JsonParser (Option UInt8) := do return (← get).head?

/-- `self.pos += count` -/
def advance (count : Nat) : JsonParser Unit := modify (List.drop count)

def next (missing : String) : JsonParser UInt8 := do
  match ← get with
  | [] => fail missing
  | byte :: rest =>
      set rest
      return byte

def isSpace (byte : UInt8) : Bool :=
  byte = 0x20 || byte = 0x09 || byte = 0x0a || byte = 0x0d

def skipWs : JsonParser Unit := modify (List.dropWhile isSpace)

def literal (lit : Bytes) (val : Json) : JsonParser Json := do
  if (← get).take lit.length = lit then
    advance lit.length
    return val
  else
    fail ("invalid literal at " ++ toString (← pos))

def isDigit (byte : UInt8) : Bool := 0x30 ≤ byte && byte ≤ 0x39

def isNumberByte (byte : UInt8) : Bool :=
  isDigit byte || byte = 0x2d || byte = 0x2b || byte = 0x2e || byte = 0x65 || byte = 0x45

def number : JsonParser Json := do
  let raw := (← get).takeWhile isNumberByte
  modify (List.dropWhile isNumberByte)
  match String.fromUTF8? ⟨raw.toArray⟩ with
  | some text => return .num text
  | none => fail "non-utf8 number"

def hexDigits (digits : Bytes) : Option Nat :=
  digits.foldlM (fun value byte => do
    let value := value * 16 + (← hexDigit byte)
    if value < 0x10000 then some value else none) 0

/-- `u16::from_str_radix(src, 16)`, which takes a plus sign in front of the digits. -/
def u16FromHex (src : Bytes) : Option Nat :=
  match src with
  | [] => none
  | [0x2b] => none
  | 0x2b :: digits => hexDigits digits
  | digits => hexDigits digits

def hex4 : JsonParser Nat := do
  let slice := (← get).take 4
  if slice.length < 4 then
    fail "short \\u escape"
  match (String.fromUTF8? ⟨slice.toArray⟩).bind fun hs => u16FromHex hs.toUTF8.data.toList with
  | some v =>
      advance 4
      return v
  | none => fail "bad \\u hex"

def charFromU32 (value : Nat) : Option Char :=
  if h : value.isValidChar then some (Char.ofNatAux value h) else none

/-- Subtraction of 16-bit numbers, which panics below zero or, unchecked, wraps around. -/
def subU16 (a b : Nat) : JsonParser Nat := if b ≤ a then return a - b else throw .overflow

def unicodeEscape : JsonParser Char := do
  let cp ← hex4
  if 0xd800 ≤ cp ∧ cp ≤ 0xdbff then
    if (← get).take 2 = [0x5c, 0x75] then
      advance 2
      let lo ← hex4
      let low ← subU16 lo 0xdc00
      match charFromU32 (0x10000 + ((cp - 0xd800) <<< 10) + low) with
      | some c => return c
      | none => fail "bad surrogate"
    else
      fail "lone high surrogate"
  else
    match charFromU32 cp with
    | some c => return c
    | none => fail "bad \\u escape"

def escape : JsonParser Char := do
  let e ← next "bad escape"
  match e with
  | 0x22 => return '"'
  | 0x5c => return '\\'
  | 0x2f => return '/'
  | 0x6e => return '\n'
  | 0x72 => return '\r'
  | 0x74 => return '\t'
  | 0x62 => return '\x08'
  | 0x66 => return '\x0c'
  | 0x75 => unicodeEscape
  | _ => fail ("unknown escape \\" ++ (Char.ofUInt8 e).toString)

/-- A byte with the continuation bytes after it. -/
def chunk (byte : UInt8) : JsonParser String := do
  let raw := byte :: (← get).takeWhile fun c => decide (IsContinuation c)
  modify (List.dropWhile fun c => decide (IsContinuation c))
  match String.fromUTF8? ⟨raw.toArray⟩ with
  | some text => return text
  | none => fail "invalid utf8 in string"

def characters : Nat → List Char → JsonParser String
  | 0, _ => throw .outOfFuel
  | fuel + 1, out => do
      let byte ← next "unterminated string"
      if byte = 0x22 then
        return String.ofList out
      else if byte = 0x5c then
        characters fuel (out ++ [← escape])
      else
        characters fuel (out ++ (← chunk byte).toList)

/-- From the opening quote on; no loop goes round more often than there are bytes. -/
def string : JsonParser String := do
  advance 1
  characters ((← read) + 1) []

/-- The loop of `array`; `element` is `value` one level down. -/
def elements (element : JsonParser Json) : Nat → List Json → JsonParser Json
  | 0, _ => throw .outOfFuel
  | fuel + 1, out => do
      let value ← element
      skipWs
      match ← peek with
      | some 0x2c =>
          advance 1
          elements element fuel (out ++ [value])
      | some 0x5d =>
          advance 1
          return .arr (out ++ [value])
      | _ => fail ("expected , or ] at " ++ toString (← pos))

def array (element : JsonParser Json) : JsonParser Json := do
  advance 1
  skipWs
  if (← peek) = some 0x5d then
    advance 1
    return .arr []
  else
    elements element ((← read) + 1) []

/-- The key of a field and the colon after it. -/
def key : JsonParser String := do
  skipWs
  if (← peek) ≠ some 0x22 then
    fail ("expected object key string at " ++ toString (← pos))
  let key ← string
  skipWs
  if (← peek) ≠ some 0x3a then
    fail ("expected : at " ++ toString (← pos))
  advance 1
  return key

def members (element : JsonParser Json) : Nat → List (String × Json) → JsonParser Json
  | 0, _ => throw .outOfFuel
  | fuel + 1, out => do
      let key ← key
      let val ← element
      skipWs
      match ← peek with
      | some 0x2c =>
          advance 1
          members element fuel (Json.insertField out key val)
      | some 0x7d =>
          advance 1
          return .obj (Json.insertField out key val)
      | _ => fail ("expected , or \x7d at " ++ toString (← pos))

def object (element : JsonParser Json) : JsonParser Json := do
  advance 1
  skipWs
  if (← peek) = some 0x7d then
    advance 1
    return .obj []
  else
    members element ((← read) + 1) []

/-- `{:?}` of a character below 256. -/
def debugChar (c : Char) : String :=
  match c with
  | '\x00' => "'\\0'"
  | '\t' => "'\\t'"
  | '\n' => "'\\n'"
  | '\r' => "'\\r'"
  | '\'' => "'\\''"
  | '\\' => "'\\\\'"
  | c =>
      if c.toNat < 0x20 ∨ (0x7f ≤ c.toNat ∧ c.toNat ≤ 0xa0) ∨ c.toNat = 0xad then
        "'\\u\x7b" ++ String.ofList (Nat.toDigits 16 c.toNat) ++ "\x7d'"
      else "'" ++ c.toString ++ "'"

/-- The recursion down to a depth; one level of nesting takes at least one byte. -/
def value : Nat → JsonParser Json
  | 0 => throw .outOfFuel
  | depth + 1 => do
      skipWs
      match ← peek with
      | some 0x7b => object (value depth)
      | some 0x5b => array (value depth)
      | some 0x22 => Json.str <$> string
      | some 0x74 => literal "true".toUTF8.data.toList (.bool true)
      | some 0x66 => literal "false".toUTF8.data.toList (.bool false)
      | some 0x6e => literal "null".toUTF8.data.toList .null
      | some byte =>
          if byte = 0x2d ∨ isDigit byte then
            number
          else
            fail ("unexpected byte " ++ debugChar (Char.ofUInt8 byte) ++ " at " ++
              toString (← pos))
      | none => fail "unexpected end of input"

def document (size : Nat) : JsonParser Json := do
  skipWs
  let v ← value (size + 1)
  skipWs
  if (← get) ≠ [] then
    fail ("trailing content at byte " ++ toString (← pos))
  return v

end JsonParser

namespace Json

def parse (text : String) : Except Fault Json :=
  let bytes := text.toUTF8.data.toList
  Prod.fst <$> ((JsonParser.document bytes.length).run bytes.length).run bytes

end Json

end TautShape.Tool
