/-
LiteXmr.Doh.Response — the reader of DNS answers in `doh.rs`.

`doh_query` hands the body of an HTTP response to `parse_dns_response`, which
trusts nothing else about it. Positions are natural numbers: the ones that the
code can reach lie below the length of a slice plus 2^16, so `usize` is wide
enough for them. Every read is a checked one (`Checked.index`, `Checked.slice`).
-/
import LiteXmr.Lib.Checked
import LiteXmr.Rust.Net

namespace LiteXmr

open Checked

/-- `u16::from_be_bytes([hi, lo])`. -/
def u16FromBeBytes (hi lo : UInt8) : UInt16 := UInt16.ofNat (Bytes.natOfBe [hi, lo])

/-- One round of the loop of `skip_name`. -/
def skipNameRound (data : Bytes) (pos : Nat) : Outcome (Control Nat Nat) := do
  if data.length ≤ pos then
    return .stop (pos + 1)
  if (← index data pos) = 0 then
    return .stop (pos + 1)
  if (← index data pos) &&& 0xC0 = 0xC0 then
    return .stop (pos + 2)
  return .next (pos + ((← index data pos).toNat + 1))

def skipName (data : Bytes) (fuel pos : Nat) : Outcome Nat := loop (skipNameRound data) fuel pos

/-- One question: its name and four bytes of type and class. A round that stops
is the early `return vec![]`. -/
def questionRound (data : Bytes) (fuel : Nat) (pos : Nat) :
    Outcome (Control Nat (List SocketAddr)) := do
  let pos ← skipName data fuel pos
  if data.length < pos + 4 then
    return .stop []
  return .next (pos + 4)

/-- The address in the RDATA at `pos`, for the record types that have one. -/
def recordAddress (data : Bytes) (atype : UInt16) (rdlength pos : Nat) :
    Outcome (List SocketAddr) := do
  if atype = 1 ∧ rdlength = 4 then
    let ip := ipv4New (← index data pos) (← index data (pos + 1)) (← index data (pos + 2))
      (← index data (pos + 3))
    return [⟨ip, 0⟩]
  else if atype = 28 ∧ rdlength = 16 then
    let octets ← copyFromSlice 16 (← slice data pos (pos + 16))
    return [⟨.v6 octets, 0⟩]
  else
    return []

/-- One answer record, with the results so far. A round that stops is one of
the `break`s. -/
def answerRound (data : Bytes) (fuel : Nat) (state : Nat × List SocketAddr) :
    Outcome (Control (Nat × List SocketAddr) (List SocketAddr)) := do
  let (pos, results) := state
  if data.length < pos + 10 then
    return .stop results
  let pos ← skipName data fuel pos
  if data.length < pos + 10 then
    return .stop results
  let atype := u16FromBeBytes (← index data pos) (← index data (pos + 1))
  let rdlength := (u16FromBeBytes (← index data (pos + 8)) (← index data (pos + 9))).toNat
  let pos := pos + 10
  if data.length < pos + rdlength then
    return .stop results
  let results := results ++ (← recordAddress data atype rdlength pos)
  return .next (pos + rdlength, results)

/-- `parse_dns_response`; the fuel is for the name loops. -/
def parseDnsResponse (fuel : Nat) (data : Bytes) : Outcome (List SocketAddr) := do
  if data.length < 12 then
    return []
  let qdcount := (u16FromBeBytes (← index data 4) (← index data 5)).toNat
  let ancount := (u16FromBeBytes (← index data 6) (← index data 7)).toNat
  match ← times (questionRound data fuel) qdcount 12 with
  | .stop results => return results
  | .next pos =>
      match ← times (answerRound data fuel) ancount (pos, []) with
      | .stop results => return results
      | .next (_, results) => return results

end LiteXmr
