/-
LiteXmr.Rust.Net — the addresses of `std::net`, how they are read from a text
and how they are printed.

Reading follows the parser of the standard library. A number has at most three
decimal digits and no leading zero, or at most four hexadecimal digits. In an
IPv6 address one `::` stands for at least one group of zeros, and the last two
groups may be written as an IPv4 address. What is left over after an address
makes the whole text invalid.

Printing abbreviates the first of the longest runs of zero groups, when there
are at least two of them, and writes an IPv4-mapped address with dots.
-/
import LiteXmr.Lib.Base16
import LiteXmr.Rust.Str

namespace LiteXmr

/-- `std::net::IpAddr` as its octets. -/
inductive IpAddr where
  | v4 (octets : { bytes : Bytes // bytes.length = 4 })
  | v6 (octets : { bytes : Bytes // bytes.length = 16 })
  deriving DecidableEq

/-- `std::net::SocketAddr`. -/
structure SocketAddr where
  ip : IpAddr
  port : UInt16
  deriving DecidableEq

/-- `Ipv4Addr::new`. -/
def ipv4New (a b c d : UInt8) : IpAddr := .v4 ⟨[a, b, c, d], rfl⟩

namespace Net

/-! ## Reading -/

/-- `char::to_digit`. -/
def toDigit (radix : Nat) (c : Char) : Option Nat := (Base16.value c).filter (· < radix)

/-- `Parser::read_number`, for a type whose values are below `limit`. -/
def readNumber (radix maxDigits : Nat) (allowZeroPrefix : Bool) (limit : Nat) (cs : List Char) :
    Option (Nat × List Char) :=
  let digits := cs.takeWhile fun c => (toDigit radix c).isSome
  let value := digits.foldl (fun n c => n * radix + (toDigit radix c).getD 0) 0
  if digits.isEmpty || maxDigits < digits.length then none
  else if !allowZeroPrefix && cs.head? == some '0' && 1 < digits.length then none
  else if value < limit then some (value, cs.drop digits.length)
  else none

/-- `Parser::read_given_char`. -/
def readGivenChar (c : Char) : List Char → Option (List Char)
  | [] => none
  | head :: rest => if head = c then some rest else none

def readOctet (cs : List Char) : Option (UInt8 × List Char) :=
  (readNumber 10 3 false 256 cs).map fun (n, rest) => (UInt8.ofNat n, rest)

/-- `Parser::read_ipv4_addr`. -/
def readIpv4Addr (cs : List Char) : Option (Bytes × List Char) := do
  let (a, cs) ← readOctet cs
  let (b, cs) ← readOctet (← readGivenChar '.' cs)
  let (c, cs) ← readOctet (← readGivenChar '.' cs)
  let (d, cs) ← readOctet (← readGivenChar '.' cs)
  return ([a, b, c, d], cs)

/-- `Parser::read_separator` for the colon between two groups. -/
def readSeparator {α : Type} (first : Bool) (inner : List Char → Option (α × List Char))
    (cs : List Char) : Option (α × List Char) :=
  if first then inner cs else (readGivenChar ':' cs).bind inner

/-- `read_groups` with room for `left` more groups: the octets that were read, whether they
end with an IPv4 address, and what is left. -/
def readGroups : Nat → Bool → List Char → Bytes × Bool × List Char
  | 0, _, cs => ([], false, cs)
  | left + 1, first, cs =>
      match if 0 < left then readSeparator first readIpv4Addr cs else none with
      | some (octets, rest) => (octets, true, rest)
      | none =>
          match readSeparator first (readNumber 16 4 true (2 ^ 16)) cs with
          | some (group, rest) =>
              let more := readGroups left false rest
              (Bytes.beOfNat 2 group ++ more.1, more.2)
          | none => ([], false, cs)

/-- `Parser::read_ipv6_addr`: a full address, or what stands before and behind `::`. -/
def readIpv6Addr (cs : List Char) : Option (Bytes × List Char) :=
  let head := readGroups 8 true cs
  if head.1.length = 16 then some (head.1, head.2.2)
  else if head.2.1 then none
  else do
    let cs ← readGivenChar ':' (← readGivenChar ':' head.2.2)
    let tail := readGroups (7 - head.1.length / 2) true cs
    return (head.1 ++ List.replicate (16 - head.1.length - tail.1.length) 0 ++ tail.1, tail.2.2)

theorem length_readIpv4Addr {cs rest : List Char} {octets : Bytes}
    (h : readIpv4Addr cs = some (octets, rest)) : octets.length = 4 := by
  simp only [readIpv4Addr, Option.bind_eq_bind, Option.pure_def, Option.bind_eq_some_iff] at h
  obtain ⟨_, _, _, _, _, _, _, _, _, _, _, _, _, _, h⟩ := h
  cases h
  rfl

theorem length_readSeparator {first : Bool} {cs rest : List Char} {octets : Bytes}
    (h : readSeparator first readIpv4Addr cs = some (octets, rest)) : octets.length = 4 := by
  unfold readSeparator at h
  split at h
  · exact length_readIpv4Addr h
  · obtain ⟨_, _, h⟩ := Option.bind_eq_some_iff.mp h
    exact length_readIpv4Addr h

/-- Two octets for each group, and no more groups than there is room for. -/
theorem length_readGroups (left : Nat) (first : Bool) (cs : List Char) :
    (readGroups left first cs).1.length % 2 = 0 ∧
      (readGroups left first cs).1.length ≤ 2 * left := by
  induction left generalizing first cs with
  | zero => exact ⟨rfl, Nat.le_refl 0⟩
  | succ left ih =>
      rw [readGroups]
      split
      · next octets rest hv4 =>
          split at hv4
          · rw [length_readSeparator hv4]
            omega
          · cases hv4
      · split
        · next group rest hgroup =>
            obtain ⟨heven, hle⟩ := ih false rest
            rw [List.length_append, Bytes.length_beOfNat]
            omega
        · exact ⟨rfl, Nat.zero_le _⟩

theorem length_readIpv6Addr {cs rest : List Char} {octets : Bytes}
    (h : readIpv6Addr cs = some (octets, rest)) : octets.length = 16 := by
  unfold readIpv6Addr at h
  simp only at h
  obtain ⟨hheven, hhle⟩ := length_readGroups 8 true cs
  split at h
  · next hfull =>
      cases h
      exact hfull
  · next hfull =>
      split at h
      · cases h
      · simp only [Option.bind_eq_bind, Option.pure_def, Option.bind_eq_some_iff] at h
        obtain ⟨_, -, cs', -, h⟩ := h
        cases h
        obtain ⟨hteven, htle⟩ :=
          length_readGroups (7 - (readGroups 8 true cs).1.length / 2) true cs'
        rw [List.length_append, List.length_append, List.length_replicate]
        omega

/-- `Parser::read_ip_addr`. -/
def readIpAddr (cs : List Char) : Option (IpAddr × List Char) :=
  match h4 : readIpv4Addr cs with
  | some (octets, rest) => some (.v4 ⟨octets, length_readIpv4Addr h4⟩, rest)
  | none =>
      match h6 : readIpv6Addr cs with
      | some (octets, rest) => some (.v6 ⟨octets, length_readIpv6Addr h6⟩, rest)
      | none => none

/-- `str::parse::<IpAddr>`. -/
def parseIpAddr (s : String) : Option IpAddr :=
  match readIpAddr s.toList with
  | some (ip, []) => some ip
  | _ => none

example : parseIpAddr "203.0.113.10" = some (ipv4New 203 0 113 10) := by decide

example : parseIpAddr "::ffff:1.2.3.4"
    = some (.v6 ⟨[0, 0, 0, 0, 0, 0, 0, 0, 0, 0, 255, 255, 1, 2, 3, 4], rfl⟩) := by decide

/-! ## Printing -/

def ipv4Text (octets : Bytes) : List Char :=
  ['.'].intercalate (octets.map fun b => Nat.toDigits 10 b.toNat)

/-- The eight groups of an IPv6 address. -/
def segments : Bytes → List Nat
  | hi :: lo :: rest => Bytes.natOfBe [hi, lo] :: segments rest
  | _ => []

/-- `Ipv6Addr::to_ipv4_mapped`. -/
def ipv4Mapped (octets : Bytes) : Option Bytes :=
  if octets.take 12 = List.replicate 10 0 ++ [255, 255] then some (octets.drop 12) else none

/-- Where a run of zero groups begins and how long it is. -/
structure Span where
  start : Nat
  len : Nat
  deriving DecidableEq

/-- The longest run of zero groups behind position `i`, the first of them when there are
several; `longest` and `current` are the runs found so far. -/
def longestZeros : List Nat → Nat → Span → Span → Span
  | [], _, longest, _ => longest
  | segment :: rest, i, longest, current =>
      if segment = 0 then
        let current := { start := if current.len = 0 then i else current.start
                         len := current.len + 1 }
        longestZeros rest (i + 1) (if longest.len < current.len then current else longest) current
      else longestZeros rest (i + 1) longest ⟨0, 0⟩

/-- `fmt_subslice`. -/
def groupsText (groups : List Nat) : List Char := [':'].intercalate (groups.map (Nat.toDigits 16))

def ipv6Text (octets : Bytes) : List Char :=
  match ipv4Mapped octets with
  | some ipv4 => "::ffff:".toList ++ ipv4Text ipv4
  | none =>
      let groups := segments octets
      let zeroes := longestZeros groups 0 ⟨0, 0⟩ ⟨0, 0⟩
      if 1 < zeroes.len then
        groupsText (groups.take zeroes.start) ++ "::".toList
          ++ groupsText (groups.drop (zeroes.start + zeroes.len))
      else groupsText groups

/-- `IpAddr::to_string`. -/
def ipText : IpAddr → List Char
  | .v4 octets => ipv4Text octets.val
  | .v6 octets => ipv6Text octets.val

end Net

/-- `SocketAddr::to_string`; an IPv6 address stands in brackets. -/
def SocketAddr.toText (addr : SocketAddr) : String :=
  match addr.ip with
  | .v4 octets => String.ofList (Net.ipv4Text octets.val ++ ':' :: Nat.toDigits 10 addr.port.toNat)
  | .v6 octets => String.ofList
      ('[' :: Net.ipv6Text octets.val ++ ']' :: ':' :: Nat.toDigits 10 addr.port.toNat)

example : SocketAddr.toText
      ⟨.v6 ⟨[0x20, 1, 0xd, 0xb8, 0, 0, 0, 0, 0, 0, 0, 0, 0, 0, 0, 1], rfl⟩, 443⟩
    = "[2001:db8::1]:443" := by decide

end LiteXmr
