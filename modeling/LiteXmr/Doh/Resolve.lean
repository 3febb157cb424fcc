/-
LiteXmr.Doh.Resolve — looking up the pool over DoH (`doh.rs`, `resolve`).

Every server is tried with a query for `example.com`, the two that answered
it fastest are asked for the pool, and the address that is connected to fastest
is taken. What the network does during one call of `resolve`, with the times
that are measured, is a parameter (`DohNetwork`). The round-trip times of the
plain DNS resolvers are logged and not used, and are left out.
-/
import LiteXmr.Base64
import LiteXmr.Doh.Response
import LiteXmr.Lib.SortByKey

namespace LiteXmr.Doh

open Checked

def typeA : UInt16 := 1

def typeAaaa : UInt16 := 28

def dohServers : List String :=
  ["https://dns.alidns.com/dns-query", "https://doh.pub/dns-query",
    "https://doh.360.cn/dns-query", "https://dns.twnic.tw/dns-query",
    "https://dns.google/dns-query", "https://cloudflare-dns.com/dns-query",
    "https://doh.sb/dns-query"]

/-- The network during one call. A URL is asked for once while the servers are tried, and
once afterwards; the addresses are connected to in their order. Times are in nanoseconds. -/
structure DohNetwork where
  /-- The body of the response in the first round, unless it fails, and the time it took. -/
  bench : String → Option Bytes × Nat
  /-- The body of the response in the second round. -/
  get : String → Option Bytes
  /-- `TcpStream::connect_timeout` to the address at a place of the list, with its time. -/
  connect : Nat → SocketAddr → Option Nat

/-- A failed request and an unreadable answer both give no addresses. The fuel is enough for
every body. -/
def dohQuery (get : String → Option Bytes) (server hostname : String) (qtype : UInt16) :
    Outcome (List SocketAddr) :=
  match get (dohUrl server hostname qtype) with
  | none => return []
  | some body => parseDnsResponse (body.length + 1) body

section

variable (net : DohNetwork)

def benchDohServer (server : String) : Outcome (Option Nat) := do
  let result ← dohQuery (fun url => (net.bench url).1) server "example.com" typeA
  return if result.isEmpty then none else some (net.bench (dohUrl server "example.com" typeA)).2

/-- The servers that answer, with their times. -/
def benchServers : List String → Outcome (List (String × Nat))
  | [] => return []
  | server :: rest => do
      let time ← benchDohServer net server
      let times ← benchServers rest
      return (time.map (server, ·)).toList ++ times

/-- The addresses that the servers give for the host, with the port of the pool. -/
def collectAddrs (hostname : String) (port : UInt16) :
    List String → Outcome (List SocketAddr)
  | [] => return []
  | server :: rest => do
      let a ← dohQuery net.get server hostname typeA
      let aaaa ← dohQuery net.get server hostname typeAaaa
      let addrs ← collectAddrs hostname port rest
      return (a ++ aaaa).map (⟨·.ip, port⟩) ++ addrs

/-- The addresses from place `i` on that could be connected to, with their times. -/
def connectAddrs : Nat → List SocketAddr → List (SocketAddr × Nat)
  | _, [] => []
  | i, addr :: rest => ((net.connect i addr).map (addr, ·)).toList ++ connectAddrs (i + 1) rest

def resolve (hostname : String) (port : UInt16) : Outcome (Option SocketAddr) := do
  let dohTimes ← benchServers net dohServers
  if dohTimes.isEmpty then
    return none
  let dohTimes := (sortByKey Prod.snd dohTimes).take 2
  let addrs ← collectAddrs net hostname port (dohTimes.map Prod.fst)
  if addrs.isEmpty then
    return none
  let addrTimes := sortByKey Prod.snd (connectAddrs net 0 addrs)
  return addrTimes.head?.map Prod.fst

end

end LiteXmr.Doh
