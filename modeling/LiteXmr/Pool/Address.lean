/-
LiteXmr.Pool.Address — the three readers of a pool address.

The transport (`transport.rs`), the controller (`controller.rs`, before it asks
DoH) and the configuration (`config.rs`, for the name to offer as SNI) each take
an address of the form `scheme://host:port/path` apart on their own. They cut out
the authority by the same text; behind it each keeps its own checks.
-/
import LiteXmr.Rust.Str

namespace LiteXmr

/-- The address without its scheme and without path, query and fragment. -/
def authorityOf (raw : String) : String :=
  let rest := match Str.splitOnce raw "://" with
    | some (_, rest) => rest
    | none => raw
  match Str.splitAtFirst rest (fun c => c == '/' || c == '?' || c == '#') with
  | some (authority, _) => authority
  | none => rest

/-! ## The transport -/

structure PoolEndpoint where
  connectAddr : String
  host : String
  port : UInt16
  tlsServerName : String
  sniOverridden : Bool
  deriving DecidableEq, Repr

def okOrElse {α : Type} (value : Option α) (error : String) : Except String α :=
  match value with
  | some a => .ok a
  | none => .error error

def parsePort (port raw : String) : Except String UInt16 :=
  okOrElse (Str.parseU16 port) s!"invalid port in pool address '{raw}'"

/-- Host and port of an authority, in the form `[addr]:port` or `host:port`. -/
def hostAndPort (authority raw : String) : Except String (String × UInt16) :=
  match Str.stripPrefix authority '[' with
  | some stripped => do
      let (host, rest) ← okOrElse (Str.splitAtFirst stripped (· == ']'))
        s!"invalid IPv6 pool address '{raw}'"
      let port ← okOrElse (Str.stripPrefix rest ':') s!"missing port in pool address '{raw}'"
      return (host, ← parsePort port raw)
  | none => do
      let (host, port) ← okOrElse (Str.rsplitOnce authority ':')
        s!"missing port in pool address '{raw}'"
      if Str.contains host ":" then
        .error s!"IPv6 pool address must use [addr]:port form: '{raw}'"
      else
        return (host, ← parsePort port raw)

/-- The override, unless it is blank. -/
def sniName (sniOverride : Option String) : Option String :=
  (sniOverride.map Str.trim).filter (· ≠ "")

def connectAddrOf (host : String) (port : UInt16) : String :=
  if Str.contains host ":" then s!"[{host}]:{port.toNat}" else s!"{host}:{port.toNat}"

def parsePoolEndpoint (addr : String) (sniOverride : Option String) :
    Except String PoolEndpoint :=
  let raw := Str.trim addr
  if raw = "" then .error "empty pool address"
  else
    let authority := authorityOf raw
    if authority = "" then .error s!"invalid pool address '{raw}'"
    else do
      let (host, port) ← hostAndPort authority raw
      if host = "" then .error s!"missing host in pool address '{raw}'"
      else
        return {
          connectAddr := connectAddrOf host port
          host := host
          port := port
          tlsServerName := (sniName sniOverride).getD host
          sniOverridden := (sniName sniOverride).isSome }

/-! ## The controller -/

def parsePoolHostPort (url : String) : Option (String × UInt16) :=
  let raw := Str.trim url
  if raw = "" then none
  else
    let authority := authorityOf raw
    match Str.stripPrefix authority '[' with
    | some stripped => do
        let (host, rest) ← Str.splitAtFirst stripped (· == ']')
        let port ← Str.parseU16 (← Str.stripPrefix rest ':')
        return (host, port)
    | none => do
        let (host, port) ← Str.rsplitOnce authority ':'
        if host = "" ∨ Str.contains host ":" then none
        else return (host, ← Str.parseU16 port)

/-- The address and the SNI override that `run` hands to the pool client;
`resolve` is `doh::resolve`, with the address it chose as text. -/
def resolvePool (doh poolTls : Bool) (resolve : String → UInt16 → Option String)
    (poolUrl : String) (poolSni : Option String) : String × Option String :=
  if doh then
    match parsePoolHostPort poolUrl with
    | some (host, port) =>
        let poolSni := if poolSni.isNone && poolTls then some host else poolSni
        match resolve host port with
        | some addr => (addr, poolSni)
        | none => (poolUrl, poolSni)
    | none => (poolUrl, poolSni)
  else (poolUrl, poolSni)

/-! ## The configuration -/

def extractHostFromPoolUrl (url : String) : Option String :=
  let raw := Str.trim url
  if raw = "" then none
  else
    let authority := authorityOf raw
    match Str.stripPrefix authority '[' with
    | some stripped => do
        let (host, _) ← Str.splitAtFirst stripped (· == ']')
        if host ≠ "" then some host else none
    | none => do
        let (host, _) ← Str.rsplitOnce authority ':'
        if host = "" ∨ Str.contains host ":" then none
        else some host

inductive PoolSni where
  | disabled
  | enabled
  | name (name : String)
  deriving DecidableEq, Repr

/-- `pool` is the SNI setting of the selected pool, if it has one. -/
def resolvePoolSni (cliSni : Option String) (pool : Option PoolSni) (poolUrl : String) :
    Option String :=
  match sniName cliSni with
  | some sni => some sni
  | none =>
      match pool with
      | some (.name name) => some name
      | some .enabled => extractHostFromPoolUrl poolUrl
      | some .disabled => none
      | none => none

end LiteXmr
