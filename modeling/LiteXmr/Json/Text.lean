/-
LiteXmr.Json.Text — JSON texts and the values they spell.

A text is read in two passes, each of them an automaton over a list. The
scanner goes through the characters and makes tokens: punctuation, strings
with their escapes resolved, and scalars (numbers and the three literal
names). The reader goes through the tokens with a stack of the arrays and
objects that are open.

What is accepted is the grammar of RFC 8259. A surrogate escape has to be
one half of a pair, and of two members with one name the last one counts;
both are left open there, and are what `serde_json` does. Its limits on the
nesting and on the size of a number are left out, so more is accepted here.
-/
import LiteXmr.Json
import LiteXmr.Lib.Base16
import LiteXmr.Lib.Lts

namespace LiteXmr.JsonText

/-! ## Scalars -/

/-- `0`, or digits that do not begin with a zero. -/
def isInt (cs : List Char) : Bool :=
  cs.all Char.isDigit && !cs.isEmpty && (cs.length == 1 || cs.head? != some '0')

def isDigits (cs : List Char) : Bool := cs.all Char.isDigit && !cs.isEmpty

def isExponent : List Char → Bool
  | [] => true
  | e :: '+' :: ds => (e == 'e' || e == 'E') && isDigits ds
  | e :: '-' :: ds => (e == 'e' || e == 'E') && isDigits ds
  | e :: ds => (e == 'e' || e == 'E') && isDigits ds

/-- What may follow the integer part of a number. -/
def isFraction : List Char → Bool
  | '.' :: cs =>
      !(cs.takeWhile Char.isDigit).isEmpty && isExponent (cs.dropWhile Char.isDigit)
  | cs => isExponent cs

def number (cs : List Char) : Option JsonNumber :=
  let neg := cs.head? == some '-'
  let rest := if neg then cs.tail else cs
  let int := rest.takeWhile Char.isDigit
  let tail := rest.dropWhile Char.isDigit
  if isInt int && isFraction tail then
    let n := Nat.ofDigitChars 10 int 0
    if tail.isEmpty && !neg && n < 2 ^ 64 then some (.posInt (UInt64.ofNat n))
    else if tail.isEmpty && neg && n != 0 && n ≤ 2 ^ 63 then some (.negInt (-n))
    else some (.float (String.ofList cs))
  else none

def scalar (cs : List Char) : Option Json :=
  if cs = ['t', 'r', 'u', 'e'] then some (.bool true)
  else if cs = ['f', 'a', 'l', 's', 'e'] then some (.bool false)
  else if cs = ['n', 'u', 'l', 'l'] then some .null
  else (number cs).map .number

/-! ## The scanner -/

inductive Token where
  | lbrace
  | rbrace
  | lbracket
  | rbracket
  | colon
  | comma
  | string (cs : List Char)
  | scalar (v : Json)

/-- Where the scanner is. The characters of the token it is in are kept in
order. -/
inductive Scan where
  | between
  | word (cs : List Char)
  | string (cs : List Char)
  /-- After a backslash. -/
  | escape (cs : List Char)
  /-- Among the four digits of a `\u` escape, in the second one of a pair when
  `high` is the first. -/
  | unicode (cs : List Char) (high : Option Nat) (digits value : Nat)
  /-- The first half of a pair is read: a backslash must follow, and then a
  `u`. -/
  | pair (cs : List Char) (high : Nat)
  | pairEscape (cs : List Char) (high : Nat)

def isWhitespace (c : Char) : Bool := c == ' ' || c == '\t' || c == '\n' || c == '\r'

def punctuation : Char → Option Token
  | '\x7b' => some .lbrace
  | '\x7d' => some .rbrace
  | '[' => some .lbracket
  | ']' => some .rbracket
  | ':' => some .colon
  | ',' => some .comma
  | _ => none

/-- The character belongs to a number or a literal name. -/
def isWordChar (c : Char) : Bool := !isWhitespace c && c != '"' && (punctuation c).isNone

def simpleEscape : Char → Option Char
  | '"' => some '"'
  | '\\' => some '\\'
  | '/' => some '/'
  | 'b' => some '\x08'
  | 'f' => some '\x0c'
  | 'n' => some '\n'
  | 'r' => some '\r'
  | 't' => some '\t'
  | _ => none

/-- The four digits of a `\u` escape are read. -/
def codeUnit (cs : List Char) (value : Nat) : Option Nat → Option Scan
  | none =>
      if 0xD800 ≤ value ∧ value < 0xDC00 then some (.pair cs value)
      else if 0xDC00 ≤ value ∧ value < 0xE000 then none
      else some (.string (cs ++ [Char.ofNat value]))
  | some high =>
      if 0xDC00 ≤ value ∧ value < 0xE000 then
        some (.string (cs ++
          [Char.ofNat (0x10000 + 0x400 * (high - 0xD800) + (value - 0xDC00))]))
      else none

/-- A character outside of tokens. -/
def scanBetween (c : Char) : Option (Scan × List Token) :=
  if isWhitespace c then some (.between, [])
  else if c = '"' then some (.string [], [])
  else
    match punctuation c with
    | some token => some (.between, [token])
    | none => some (.word [c], [])

def scanStep : Lts.Step Scan Char Token
  | .between, c => scanBetween c
  | .word cs, c =>
      if isWordChar c then some (.word (cs ++ [c]), [])
      else
        match scalar cs, scanBetween c with
        | some v, some (scan, tokens) => some (scan, .scalar v :: tokens)
        | _, _ => none
  | .string cs, c =>
      if c = '"' then some (.between, [.string cs])
      else if c = '\\' then some (.escape cs, [])
      else if c.toNat < 0x20 then none
      else some (.string (cs ++ [c]), [])
  | .escape cs, c =>
      if c = 'u' then some (.unicode cs none 0 0, [])
      else (simpleEscape c).map fun d => (.string (cs ++ [d]), [])
  | .unicode cs high digits value, c =>
      match Base16.value c with
      | none => none
      | some d =>
          if digits < 3 then some (.unicode cs high (digits + 1) (16 * value + d), [])
          else (codeUnit cs (16 * value + d) high).map fun scan => (scan, [])
  | .pair cs high, c => if c = '\\' then some (.pairEscape cs high, []) else none
  | .pairEscape cs high, c => if c = 'u' then some (.unicode cs (some high) 0 0, []) else none

/-- The token the end of the text completes. -/
def scanEnd : Scan → Option (List Token)
  | .between => some []
  | .word cs => (scalar cs).map fun v => [.scalar v]
  | _ => none

def tokens (cs : List Char) : Option (List Token) :=
  match Lts.exec scanStep .between cs with
  | none => none
  | some (scan, ts) => (scanEnd scan).map fun last => ts ++ last

/-! ## The reader -/

/-- An array or object that is open, with what it holds so far. -/
inductive Frame where
  | array (xs : List Json)
  | object (fields : List (String × Json)) (key : String)

inductive Reader where
  /-- A value must come. -/
  | value (stack : List Frame)
  /-- After `[`: a value or `]`. -/
  | elements (stack : List Frame)
  /-- A member must come; after the opening brace also its end. -/
  | members (stack : List Frame) (fields : List (String × Json)) (first : Bool)
  | colon (stack : List Frame) (fields : List (String × Json)) (key : String)
  /-- A value is complete. -/
  | complete (stack : List Frame) (v : Json)

/-- A member, in place of an earlier one of its name. -/
def setField (key : String) (v : Json) : List (String × Json) → List (String × Json)
  | [] => [(key, v)]
  | (k, w) :: rest => if k = key then (k, v) :: rest else (k, w) :: setField key v rest

/-- A token where a value may begin. -/
def readValue (stack : List Frame) : Token → Option Reader
  | .string cs => some (.complete stack (.string (String.ofList cs)))
  | .scalar v => some (.complete stack v)
  | .lbracket => some (.elements stack)
  | .lbrace => some (.members stack [] true)
  | _ => none

def readStep : Reader → Token → Option Reader
  | .value stack, token => readValue stack token
  | .elements stack, .rbracket => some (.complete stack (.array []))
  | .elements stack, token => readValue (.array [] :: stack) token
  | .members stack fields _, .string cs => some (.colon stack fields (String.ofList cs))
  | .members stack _ true, .rbrace => some (.complete stack (.object []))
  | .colon stack fields key, .colon => some (.value (.object fields key :: stack))
  | .complete (.array xs :: stack) v, .comma => some (.value (.array (xs ++ [v]) :: stack))
  | .complete (.array xs :: stack) v, .rbracket => some (.complete stack (.array (xs ++ [v])))
  | .complete (.object fields key :: stack) v, .comma =>
      some (.members stack (setField key v fields) false)
  | .complete (.object fields key :: stack) v, .rbrace =>
      some (.complete stack (.object (setField key v fields)))
  | _, _ => none

def readTokens (ts : List Token) : Option Json :=
  match ts.foldlM readStep (.value []) with
  | some (.complete [] v) => some v
  | _ => none

/-- The value a text spells. -/
def read (text : String) : Option Json := (tokens text.toList).bind readTokens

end LiteXmr.JsonText
