/-
LiteXmr.Rust.Str — the `str` methods the miner calls, on the characters of
a string.

Rust's byte positions are sums of UTF-8 lengths here, so `&s[..n]` is only
defined at a character boundary (`isCharBoundary`), and `s.get(..n)` is
`none` where the slice would panic.
-/
import LiteXmr.Lib.Bytes

namespace LiteXmr.Str

/-- The Unicode `White_Space` property (`char::is_whitespace`). -/
def isWhitespace (c : Char) : Bool :=
  let n := c.toNat
  (9 ≤ n && n ≤ 13) || n == 0x20 || n == 0x85 || n == 0xA0 || n == 0x1680 ||
    (0x2000 ≤ n && n ≤ 0x200A) || n == 0x2028 || n == 0x2029 || n == 0x202F ||
    n == 0x205F || n == 0x3000

def trimChars (cs : List Char) : List Char :=
  ((cs.dropWhile isWhitespace).reverse.dropWhile isWhitespace).reverse

/-- `str::trim`. -/
def trim (s : String) : String := String.ofList (trimChars s.toList)

/-- `str::contains` for a string pattern. -/
def contains (s pat : String) : Bool :=
  s.toList.tails.any fun t => pat.toList.isPrefixOf t

/-- `str::len`: the length in bytes. -/
def len (s : String) : Nat := (s.toList.map Char.utf8Size).sum

/-- `str::as_bytes`. -/
def asBytes (s : String) : Bytes := s.toList.flatMap String.utf8EncodeChar

/-- `str::starts_with` for a string pattern. -/
def startsWith (s pat : String) : Bool := pat.toList.isPrefixOf s.toList

/-- `str::ends_with` for a string pattern. -/
def endsWith (s pat : String) : Bool := pat.toList.isSuffixOf s.toList

/-- `str::to_ascii_lowercase`. -/
def toAsciiLowercase (s : String) : String := String.ofList (s.toList.map Char.toLower)

/-- `str::trim_end_matches` for a character. -/
def trimEndMatches (s : String) (c : Char) : String :=
  String.ofList (s.toList.reverse.dropWhile (· == c)).reverse

/-- The characters that fill exactly the first `n` bytes, when `n` is a
character boundary. -/
def takeBytes : List Char → Nat → Option (List Char)
  | _, 0 => some []
  | [], _ + 1 => none
  | c :: cs, n + 1 =>
      if c.utf8Size ≤ n + 1 then (takeBytes cs (n + 1 - c.utf8Size)).map (c :: ·) else none

/-- `str::get(..n)`. -/
def getTo (s : String) (n : Nat) : Option String := (takeBytes s.toList n).map String.ofList

/-- `&s[..n]` does not panic. -/
def isCharBoundary (s : String) (n : Nat) : Bool := (takeBytes s.toList n).isSome

/-! ## Splitting -/

def splitOnceChars (pat : List Char) : List Char → Option (List Char × List Char)
  | [] => if pat = [] then some ([], []) else none
  | c :: cs =>
      if pat.isPrefixOf (c :: cs) then some ([], (c :: cs).drop pat.length)
      else (splitOnceChars pat cs).map fun (before, after) => (c :: before, after)

/-- `str::split_once`. -/
def splitOnce (s pat : String) : Option (String × String) :=
  (splitOnceChars pat.toList s.toList).map fun (before, after) =>
    (String.ofList before, String.ofList after)

def splitAtChars (p : Char → Bool) : List Char → Option (List Char × List Char)
  | [] => none
  | c :: cs =>
      if p c then some ([], cs)
      else (splitAtChars p cs).map fun (before, after) => (c :: before, after)

/-- What stands before and behind the first character with the property: `&s[..i]` and
`&s[i + 1..]` for `i = s.find(p)?`, when such a character takes one byte. -/
def splitAtFirst (s : String) (p : Char → Bool) : Option (String × String) :=
  (splitAtChars p s.toList).map fun (before, after) =>
    (String.ofList before, String.ofList after)

/-- `str::rsplit_once` for a character. -/
def rsplitOnce (s : String) (c : Char) : Option (String × String) :=
  (splitAtChars (· == c) s.toList.reverse).map fun (after, before) =>
    (String.ofList before.reverse, String.ofList after.reverse)

/-- `str::strip_prefix` for a character. -/
def stripPrefix (s : String) (c : Char) : Option String :=
  match s.toList with
  | [] => none
  | head :: rest => if head = c then some (String.ofList rest) else none

/-- `str::strip_prefix` for a string pattern. -/
def stripPrefixStr (s pat : String) : Option String :=
  if startsWith s pat then some (String.ofList (s.toList.drop pat.toList.length)) else none

/-- `str::split` for a character. -/
def split (s : String) (c : Char) : List String := (s.toList.splitOn c).map String.ofList

/-- `str::parse::<u16>`: decimal digits after an optional plus sign. -/
def parseU16 (s : String) : Option UInt16 :=
  let digits : List Char := match s.toList with
    | '+' :: rest => rest
    | cs => cs
  let value := digits.foldl (fun n c => 10 * n + (c.toNat - '0'.toNat)) 0
  if digits ≠ [] ∧ digits.all Char.isDigit ∧ value < 2 ^ 16 then some (UInt16.ofNat value)
  else none

end LiteXmr.Str
