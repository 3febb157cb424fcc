/-
LiteXmr.Config.Config — the configuration of a run (`config.rs`).

`Config.load` merges the command line with the configuration file. The file
comes as the record that serde makes of it; which file is read, and how the
command line is taken apart, is not part of the model. The number of
processors is a parameter.

Four settings are read off the scheme of the pool address (`urlImpliesTls` and
its three siblings), and the SNI setting has a deserializer of its own
(`deserializePoolSni`).
-/
import LiteXmr.Algorithms
import LiteXmr.Json
import LiteXmr.Pool.Address
import LiteXmr.Rust.Net

namespace LiteXmr

open Algorithms (AlgoPerf)

/-! ## The command line -/

structure Args where
  url : Option String := none
  user : Option String := none
  pass : Option String := none
  threads : Option UInt32 := none
  tls : Bool := false
  tlsAllow12 : Bool := false
  tlsFingerprint : Option String := none
  sni : Option String := none
  socks5 : Option String := none
  minerSignature : Option String := none
  daemonRpc : Bool := false
  daemonRpcLogin : Option String := none
  userAgent : Option String := none
  http2 : Bool := false
  http3 : Bool := false
  ws : Bool := false
  logLevel : Option String := none
  apiBind : Option SocketAddr := none
  keepalive : Bool := false
  doh : Bool := false
  background : Bool := false
  rebenchAlgo : Bool := false
  benchAlgoTime : Option UInt64 := none
  algoMinTime : Option UInt64 := none
  useECores : Bool := false
  verbose : Bool := false

/-! ## The file -/

/-- `display` is the text of a value, as `serde_json` prints it. -/
def deserializePoolSni (display : Json → String) :
    Option Json → Except String (Option PoolSni)
  | none => .ok none
  | some .null => .ok none
  | some (.bool true) => .ok (some .enabled)
  | some (.bool false) => .ok (some .disabled)
  | some (.string s) =>
      let s := Str.trim s
      .ok (if s = "" then none else some (.name s))
  | some other => .error s!"invalid sni value {display other}; expected bool or string"

/-- A value of the field `sni`: one that the deserializer makes of something. -/
def SniSetting : Type :=
  { sni : Option PoolSni // ∃ display value, deserializePoolSni display value = .ok sni }

/-- No `sni` in the file, or a string. -/
def SniSetting.ofText (text : Option String) : SniSetting :=
  ⟨text.bind fun s => if Str.trim s = "" then none else some (.name (Str.trim s)),
    fun _ => "", text.map .string, by cases text <;> rfl⟩

structure PoolConfig where
  url : Option String := none
  user : Option String := none
  pass : Option String := none
  enabled : Bool := true
  tls : Bool := false
  tlsAllow12 : Bool := false
  tlsFingerprint : Option String := none
  sni : SniSetting := .ofText none
  socks5 : Option String := none
  minerSignature : Option String := none
  daemonRpc : Bool := false
  daemonRpcLogin : Option String := none
  ua : Option String := none
  http2 : Bool := false
  http3 : Bool := false
  ws : Bool := false
  keepalive : Bool := false
  doh : Bool := false
  algoPerf : AlgoPerf := ∅
  algoMinTime : Option UInt64 := none

structure CpuConfig where
  threads : Option UInt32 := none
  maxThreadsHint : Option UInt32 := none
  rx : Option Json := none

structure ApiConfig where
  bind : Option SocketAddr := none

structure HttpConfig where
  enabled : Bool := false
  host : Option String := none
  port : Option UInt16 := none

structure LoggingConfig where
  level : String := "info"

structure FileConfig where
  pools : Option (List PoolConfig) := none
  pool : Option PoolConfig := none
  cpu : Option CpuConfig := none
  api : Option ApiConfig := none
  http : Option HttpConfig := none
  logging : Option LoggingConfig := none
  userAgent : Option String := none
  background : Option Bool := none
  verbose : Option UInt32 := none
  useECores : Option Bool := none
  algoPerf : AlgoPerf := ∅
  rebenchAlgo : Option Bool := none
  benchAlgoTime : Option UInt64 := none
  algoMinTime : Option UInt64 := none

/-- The pool that is mined for: the first enabled one, or else the first. -/
def selectedPool (fileCfg : FileConfig) : Option PoolConfig :=
  (((fileCfg.pool.filter (·.enabled)).or
    (fileCfg.pools.bind fun pools => pools.find? (·.enabled))).or
    fileCfg.pool).or (fileCfg.pools.bind List.head?)

/-! ## Schemes -/

def urlImpliesTls (url : String) : Bool :=
  let lower := Str.toAsciiLowercase url
  Str.startsWith lower "stratum+ssl://" || Str.startsWith lower "stratum+tls://" ||
    Str.startsWith lower "ssl://" || Str.startsWith lower "tls://" ||
    Str.startsWith lower "https://" || Str.startsWith lower "wss://" ||
    Str.startsWith lower "http3://" || Str.startsWith lower "h3://"

def parseHostPortLike (url : String) : Option (String × UInt16) :=
  let raw := Str.trim url
  if raw = "" ∨ Str.contains raw "://" then none
  else do
    let (host, port) ← Str.rsplitOnce raw ':'
    if host = "" ∨ Str.contains host ":" then none
    else return (host, ← Str.parseU16 port)

/-- The usual RPC ports of monerod. -/
def daemonRpcPorts : List UInt16 := [18081, 18089, 28081, 38081]

def urlImpliesDaemonRpc (url : String) : Bool :=
  let lower := Str.toAsciiLowercase url
  Str.startsWith lower "daemon+http://" || Str.startsWith lower "daemon+https://" ||
    Str.startsWith lower "http://" || Str.startsWith lower "https://" ||
    (parseHostPortLike url).any fun (_, port) => daemonRpcPorts.contains port

def urlImpliesHttp3 (url : String) : Bool :=
  let lower := Str.toAsciiLowercase url
  Str.startsWith lower "http3://" || Str.startsWith lower "h3://"

def urlImpliesWs (url : String) : Bool :=
  let lower := Str.toAsciiLowercase url
  Str.startsWith lower "ws://" || Str.startsWith lower "wss://"

/-! ## Merging -/

def firstNonEmpty (a b : Option String) : Option String :=
  match a.filter (· ≠ "") with
  | some s => some s
  | none => b.filter (· ≠ "")

def threadsFromXmrigCpuValue : Json → Option UInt32
  | .array threads =>
      let count := UInt32.ofNat (threads.countP fun v =>
        match v with
        | .bool false | .null => false
        | _ => true)
      if 0 < count then some count else none
  | .object fields =>
      ((Json.lookup "threads" fields).bind Json.asU64).bind fun n =>
        if n.toNat < 2 ^ 32 then some n.toUInt32 else none
  | _ => none

def threadsFromMaxThreadsHint (numCpus : Nat) (hint : UInt32) : Option UInt32 :=
  if hint = 0 ∨ 100 ≤ hint then none
  else
    let share := UInt32.ofNat (max numCpus 1) * hint
    some (max (if share % 100 = 0 then share / 100 else share / 100 + 1) 1)

def resolveThreads (numCpus : Nat) (cliThreads : Option UInt32) (cpu : Option CpuConfig) :
    UInt32 :=
  match cliThreads, cpu with
  | some threads, _ => threads
  | none, none => 0
  | none, some cpu =>
      ((cpu.threads.or (cpu.rx.bind threadsFromXmrigCpuValue)).or
        (cpu.maxThreadsHint.bind (threadsFromMaxThreadsHint numCpus))).getD 0

def httpBindAddr (http : Option HttpConfig) : Option SocketAddr := do
  let http ← http
  if !http.enabled then none
  let port ← http.port
  if port = 0 then none
  let host := http.host.getD "127.0.0.1"
  let ip ← if host = "localhost" then some (ipv4New 127 0 0 1) else Net.parseIpAddr host
  return ⟨ip, port⟩

/-- `cpu::APP_VERSION`, the version in `Cargo.toml`. -/
def appVersion : String := "1.2.0"

def resolveUserAgent (mode : Option String) : String :=
  let raw := ((mode.map Str.trim).filter (· ≠ "")).getD "default"
  let lite := s!"lite-xmr/{appVersion} rust/2022"
  match Str.toAsciiLowercase raw with
  | "default" => "XMRig/6.26.0 (Windows NT 10.0; Win64; x64)"
  | "edge" => "Mozilla/5.0 (Windows NT 10.0; Win64; x64) AppleWebKit/537.36 (KHTML, like Gecko) "
      ++ "Chrome/149.0.0.0 Safari/537.36 Edg/149.0.0.0"
  | "full" => s!"XMRig/6.26.0 (Windows NT 10.0; Win64; x64) libuv/1.51.0 msvc/2022 {lite}"
  | "xmrig" => "XMRig/6.26.0 (Windows NT 10.0; Win64; x64) libuv/1.51.0 msvc/2022"
  | "fast" => lite
  | "short" => s!"lite-xmr/{appVersion}"
  | "sogo" => "Mozilla/5.0 (Windows NT 6.1; WOW64) AppleWebKit/537.36 (KHTML, like Gecko) "
      ++ "Chrome/49.0.2623.221 Safari/537.36 SE 2.X MetaSr 1.0"
  | "ie11" => "Mozilla/5.0 (Windows NT 6.1; WOW64; Trident/7.0; rv:11.0) like Gecko"
  | _ => raw

/-! ## The configuration -/

structure Config where
  poolUrl : String
  poolUser : String
  poolPass : String
  poolTls : Bool
  tlsAllow12 : Bool
  tlsFingerprint : Option String
  poolSni : Option String
  socks5 : Option String
  minerSignature : Option String
  daemonRpc : Bool
  daemonRpcLogin : Option String
  userAgent : String
  http2 : Bool
  http3 : Bool
  ws : Bool
  threads : UInt32
  logLevel : String
  apiBind : Option SocketAddr
  keepalive : Bool
  doh : Bool
  background : Bool
  useECores : Bool
  algoPerf : AlgoPerf
  rebenchAlgo : Bool
  benchAlgoTime : UInt64
  algoMinTime : Option UInt64

/-- The performance data of the file, overwritten key by key by those of the pool. -/
def mergeAlgoPerf (fileCfg : Option FileConfig) (pool : Option PoolConfig) : AlgoPerf :=
  let algoPerf := (fileCfg.map (·.algoPerf)).getD ∅
  match pool with
  | some pool => algoPerf.insertMany pool.algoPerf.toList
  | none => algoPerf

def resolveLogLevel (args : Args) (fileCfg : Option FileConfig) : String :=
  match args.logLevel with
  | some level => level
  | none =>
      if args.verbose || 0 < ((fileCfg.bind (·.verbose)).getD 0) then "debug"
      else ((fileCfg.bind (·.logging)).map (·.level)).getD "info"

/-- `Config::load`, on what `find_config_file` has found. -/
def Config.load (numCpus : Nat) (args : Args) (fileCfg : Option FileConfig) :
    Except String Config := do
  let pool := fileCfg.bind selectedPool
  let poolUrl ← okOrElse (firstNonEmpty args.url (pool.bind (·.url)))
    "missing pool url, use -o/--url/--pool or config"
  return {
    poolUrl
    poolUser := (firstNonEmpty args.user (pool.bind (·.user))).getD "x"
    poolPass := (args.pass.or (pool.bind (·.pass))).getD "x"
    poolTls := args.tls || (pool.map (·.tls)).getD false || urlImpliesTls poolUrl
    tlsAllow12 := args.tlsAllow12 || (pool.map (·.tlsAllow12)).getD false
    tlsFingerprint := firstNonEmpty args.tlsFingerprint (pool.bind (·.tlsFingerprint))
    poolSni := resolvePoolSni args.sni (pool.bind (·.sni.val)) poolUrl
    socks5 := firstNonEmpty args.socks5 (pool.bind (·.socks5))
    minerSignature := firstNonEmpty args.minerSignature (pool.bind (·.minerSignature))
    daemonRpc := args.daemonRpc || (pool.map (·.daemonRpc)).getD false
      || urlImpliesDaemonRpc poolUrl
    daemonRpcLogin := firstNonEmpty args.daemonRpcLogin (pool.bind (·.daemonRpcLogin))
    userAgent := resolveUserAgent
      ((args.userAgent.or (pool.bind (·.ua))).or (fileCfg.bind (·.userAgent)))
    http2 := args.http2 || (pool.map (·.http2)).getD false
    http3 := args.http3 || (pool.map (·.http3)).getD false || urlImpliesHttp3 poolUrl
    ws := args.ws || (pool.map (·.ws)).getD false || urlImpliesWs poolUrl
    threads := resolveThreads numCpus args.threads (fileCfg.bind (·.cpu))
    logLevel := resolveLogLevel args fileCfg
    apiBind := (args.apiBind.or ((fileCfg.bind (·.api)).bind (·.bind))).or
      (httpBindAddr (fileCfg.bind (·.http)))
    keepalive := args.keepalive || (pool.map (·.keepalive)).getD false
    doh := args.doh || (pool.map (·.doh)).getD false
    background := args.background || (fileCfg.bind (·.background)).getD false
    useECores := args.useECores || (fileCfg.bind (·.useECores)).getD false
    algoPerf := mergeAlgoPerf fileCfg pool
    rebenchAlgo := args.rebenchAlgo || (fileCfg.bind (·.rebenchAlgo)).getD false
    benchAlgoTime := max
      ((args.benchAlgoTime.or (fileCfg.bind (·.benchAlgoTime))).getD 20) 1
    algoMinTime := (args.algoMinTime.or (pool.bind (·.algoMinTime))).or
      (fileCfg.bind (·.algoMinTime)) }

end LiteXmr
