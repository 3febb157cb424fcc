/-
LiteXmr.Json.Write — the text `serde_json` writes for a value.

The compact form: no blank between tokens; in strings the quote, the
backslash and the control characters are escaped and all else stands as it
is. A `Map` of `serde_json` is a `BTreeMap`, so an object is written in the
order of its keys, which is that of their characters, and of two insertions
with one key the later counts (`ordered`).

A float is written as its text. The texts a program writes are those
`serde_json` prints itself, so this is the number it holds.
-/
import Mathlib.Data.Char
import Mathlib.Data.List.Lex
import LiteXmr.Json.Text

namespace LiteXmr.JsonText

/-! ## Strings and numbers -/

/-- What stands for a character inside a string. -/
def escape (c : Char) : List Char :=
  if c = '"' then ['\\', '"']
  else if c = '\\' then ['\\', '\\']
  else if c = '\x08' then ['\\', 'b']
  else if c = '\x0c' then ['\\', 'f']
  else if c = '\n' then ['\\', 'n']
  else if c = '\r' then ['\\', 'r']
  else if c = '\t' then ['\\', 't']
  else if c.toNat < 0x20 then
    ['\\', 'u', '0', '0', Base16.digit (c.toNat / 16), Base16.digit (c.toNat % 16)]
  else [c]

def writeString (s : String) : List Char := '"' :: s.toList.flatMap escape ++ ['"']

def writeNumber : JsonNumber → List Char
  | .posInt n => Nat.toDigits 10 n.toNat
  | .negInt n => '-' :: Nat.toDigits 10 n.natAbs
  | .float text => text.toList

/-! ## Values -/

/-- What stands before an element or a member. -/
def separator (first : Bool) : List Char := if first then [] else [',']

mutual
def write : Json → List Char
  | .null => ['n', 'u', 'l', 'l']
  | .bool true => ['t', 'r', 'u', 'e']
  | .bool false => ['f', 'a', 'l', 's', 'e']
  | .number n => writeNumber n
  | .string s => writeString s
  | .array xs => '[' :: writeElements true xs
  | .object fields => '\x7b' :: writeFields true fields

/-- The elements that are left, up to the closing bracket. -/
def writeElements (first : Bool) : List Json → List Char
  | [] => [']']
  | x :: xs => separator first ++ write x ++ writeElements false xs

def writeFields (first : Bool) : List (String × Json) → List Char
  | [] => ['\x7d']
  | (key, v) :: fields =>
      separator first ++ (writeString key ++ ':' :: write v) ++ writeFields false fields
end

/-! ## Maps -/

/-- `Map::insert`: the entries are in the order of their keys. -/
def insertField (key : String) (v : Json) : List (String × Json) → List (String × Json)
  | [] => [(key, v)]
  | (k, w) :: rest =>
      if key.toList < k.toList then (key, v) :: (k, w) :: rest
      else if key = k then (key, v) :: rest
      else (k, w) :: insertField key v rest

mutual
/-- The value with the fields of each object put into a map one after the
other. -/
def ordered : Json → Json
  | .null => .null
  | .bool b => .bool b
  | .number n => .number n
  | .string s => .string s
  | .array xs => .array (orderedElements xs)
  | .object fields => .object (orderedFields [] fields)

def orderedElements : List Json → List Json
  | [] => []
  | x :: xs => ordered x :: orderedElements xs

def orderedFields (map : List (String × Json)) : List (String × Json) → List (String × Json)
  | [] => map
  | (key, v) :: fields => orderedFields (insertField key (ordered v) map) fields
end

/-- `Value::to_string`. -/
def toText (v : Json) : String := String.ofList (write (ordered v))

end LiteXmr.JsonText
