/-
LiteXmr.Json — `serde_json::Value` and the accessors the miner uses.

An object is an association list; `get` takes the first entry of a key,
and the parser never makes two. A number is kept the way `serde_json`
keeps it: a non-negative integer that fits `u64`, a negative integer, or a
float, whose text stands for its value (nothing here computes with it).
-/
import Mathlib.Tactic.Common

namespace LiteXmr

inductive JsonNumber where
  | posInt (n : UInt64)
  | negInt (n : Int)
  | float (text : String)
  deriving DecidableEq, Repr

inductive Json where
  | null
  | bool (b : Bool)
  | number (n : JsonNumber)
  | string (s : String)
  | array (xs : List Json)
  | object (fields : List (String × Json))
  deriving Repr

namespace Json

def lookup (key : String) : List (String × Json) → Option Json
  | [] => none
  | (k, v) :: rest => if k = key then some v else lookup key rest

/-- `Value::get` with a string key: `None` for anything but an object. -/
def get : Json → String → Option Json
  | .object fields, key => lookup key fields
  | _, _ => none

def asStr : Json → Option String
  | .string s => some s
  | _ => none

def asU64 : Json → Option UInt64
  | .number (.posInt n) => some n
  | _ => none

def asArray : Json → Option (List Json)
  | .array xs => some xs
  | _ => none

/-- `Value::as_object`; `lookup` is the map's `get`. -/
def asObject : Json → Option (List (String × Json))
  | .object fields => some fields
  | _ => none

def isNull : Json → Bool
  | .null => true
  | _ => false

end Json

end LiteXmr
