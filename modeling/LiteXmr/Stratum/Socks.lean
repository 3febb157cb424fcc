/-
LiteXmr.Stratum.Socks — connecting to the pool, directly or through a SOCKS5
proxy (`stratum/transport.rs`).

`connect_tcp` dials the proxy when one is set and asks it for the host of the
endpoint. The proxy is the other side of a dialogue; a connection takes what is
written to it, and ends where the proxy stops.
-/
import LiteXmr.Lib.Dialogue
import LiteXmr.Pool.Address
import LiteXmr.Rust.Net

namespace LiteXmr.Stratum

open Dialogue

/-- The text of tokio's `UnexpectedEof`. -/
def earlyEof : String := "early eof"

/-- The CONNECT request of `socks5_connect`: an IP literal as an address, anything else by
name. -/
def connectRequest (host : String) (port : UInt16) : Except String Bytes :=
  let address : Except String Bytes := match Net.parseIpAddr host with
    | some (.v4 octets) => .ok (0x01 :: octets.val)
    | some (.v6 octets) => .ok (0x04 :: octets.val)
    | none =>
        let hostBytes := Str.asBytes host
        if 255 < hostBytes.length then .error "SOCKS5 host name is too long"
        else .ok (0x03 :: UInt8.ofNat hostBytes.length :: hostBytes)
  address.map fun address =>
    [0x05, 0x01, 0x00] ++ address ++ Bytes.beOfNat 2 port.toNat

/-- The address that the proxy is bound to, behind its type, is read and dropped. -/
def skipBound (atyp : UInt8) : Dialogue String Unit :=
  if atyp = 0x01 then do
    let _ ← readExact earlyEof 6
    return
  else if atyp = 0x03 then do
    let len ← readExact earlyEof 1
    let _ ← readExact earlyEof ((len.getD 0 0).toNat + 2)
    return
  else if atyp = 0x04 then do
    let _ ← readExact earlyEof 18
    return
  else fail s!"SOCKS5 proxy returned invalid address type 0x{Base16.encode [atyp]}"

/-- The greeting of `socks5_connect`: no authentication is offered. -/
def greet : Dialogue String Unit := do
  writeAll [0x05, 0x01, 0x00]
  let hello ← readExact earlyEof 2
  bailIf (hello ≠ [0x05, 0x00]) "SOCKS5 proxy requires unsupported authentication"

/-- The request of `socks5_connect` and the head of the answer: the type of the bound address. -/
def askConnect (host : String) (port : UInt16) : Dialogue String UInt8 := do
  let req ← ofExcept (connectRequest host port)
  writeAll req
  let head ← readExact earlyEof 4
  bailIf (head.getD 0 0 ≠ 0x05 ∨ head.getD 1 0 ≠ 0x00)
    s!"SOCKS5 connect failed with status 0x{Base16.encode [head.getD 1 0]}"
  return head.getD 3 0

def socks5Connect (host : String) (port : UInt16) : Dialogue String Unit := do
  greet
  let atyp ← askConnect host port
  skipBound atyp

/-- The proxy, unless the setting is blank. -/
def socksProxy (socks5 : Option String) : Option String :=
  (socks5.map Str.trim).filter (· ≠ "")

/-- `dial` is `TcpStream::connect`: what the other side will send, or an error. -/
def connectTcp (dial : String → Except String Bytes) (endpoint : PoolEndpoint)
    (socks5 : Option String) : Except String Wire :=
  match socksProxy socks5 with
  | none => do
      let incoming ← dial endpoint.connectAddr
      return ⟨incoming, []⟩
  | some proxy => do
      let incoming ← dial proxy
      match socks5Connect endpoint.host endpoint.port ⟨incoming, []⟩ with
      | (.ok (), wire) => .ok wire
      | (.error e, _) => .error e

end LiteXmr.Stratum
