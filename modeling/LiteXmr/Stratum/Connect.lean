/-
LiteXmr.Stratum.Connect — opening the transport of a session
(`stratum/transport.rs`, `StratumTransport::connect`).

With TLS the handshake is tried twice: with rustls, and, when that fails for
whatever reason, on a second connection with OpenSSL. The two check the
certificate in different places. rustls calls `PoolCertVerifier` during its
handshake; OpenSSL is told to verify nothing, and `connect_openssl` compares
the digest itself when the handshake is over.

What the two libraries do in a handshake is a parameter (`TlsLibraries`), and
so is what `TcpStream::connect` reaches, which may differ between the two
connections.
-/
import LiteXmr.Stratum.Client
import LiteXmr.Stratum.Socks
import LiteXmr.Stratum.Transport

namespace LiteXmr.Stratum

/-! ## The TLS libraries -/

/-- `rustls::pki_types::ServerName`. -/
inductive ServerName where
  | ipAddress (ip : IpAddr)
  | dnsName (name : String)

/-- The client configuration of `connect_rustls`. -/
structure RustlsConfig where
  versions : List ProtocolVersion
  verifier : PoolCertVerifier

/-- A rustls stream after its handshake. -/
structure RustlsStream where
  handshake : Handshake
  wire : Wire

/-- `openssl::ssl::SslVersion`. -/
inductive SslVersion where
  | ssl3
  | tls1
  | tls1_1
  | tls1_2
  | tls1_3
  deriving DecidableEq

/-- The numbers of the versions on the wire. -/
def SslVersion.number : SslVersion → Nat
  | .ssl3 => 0x300
  | .tls1 => 0x301
  | .tls1_1 => 0x302
  | .tls1_2 => 0x303
  | .tls1_3 => 0x304

def ProtocolVersion.sslVersion : ProtocolVersion → SslVersion
  | .tls12 => .tls1_2
  | .tls13 => .tls1_3

/-- `SslVerifyMode::NONE` and `PEER`. -/
inductive SslVerifyMode where
  | none
  | peer

/-- What `connect_openssl` sets on the builder and on the configuration. -/
structure SslConfig where
  verify : SslVerifyMode
  minProtoVersion : Option SslVersion
  maxProtoVersion : Option SslVersion
  useServerNameIndication : Bool
  verifyHostname : Bool

/-- An OpenSSL stream after its handshake; the certificate of the peer with what
`to_der` makes of it. -/
structure SslStream where
  version : SslVersion
  peerCertificate : Option (Except String Bytes)
  wire : Wire

/-- The code outside the program: the validation of a DNS name, the handshakes of the two
libraries over a connection, and SHA-256. -/
structure TlsLibraries where
  /-- `ServerName::try_from(String)`. -/
  dnsName : String → Except String ServerName
  rustls : RustlsConfig → ServerName → Wire → Except String RustlsStream
  /-- `SslConnector` and `SslStream::connect`. -/
  openssl : SslConfig → String → Wire → Except String SslStream
  sha256 : Bytes → Bytes

/-! ## The transport -/

inductive StratumTransport where
  | tcp (stream : Wire)
  | tlsRustls (stream : RustlsStream)
  | tlsOpenSsl (stream : SslStream)

/-- The settings of `StratumClient` that say how to connect. -/
structure TransportSettings where
  url : String
  useTls : Bool
  sni : Option String
  tlsAllow12 : Bool
  tlsFingerprint : Option String
  socks5 : Option String

section

variable (libs : TlsLibraries)

/-- The name that `connect_rustls` asks for: an IP literal as an address. -/
def rustlsServerName (serverName : String) : Except String ServerName :=
  match Net.parseIpAddr serverName with
  | some ip => .ok (.ipAddress ip)
  | none => libs.dnsName serverName

def connectRustls (stream : Wire) (serverName : String) (tlsAllow12 : Bool)
    (tlsFingerprint : Option String) : Except String RustlsStream := do
  let versions : List ProtocolVersion := if tlsAllow12 then [.tls13, .tls12] else [.tls13]
  let verifier ← PoolCertVerifier.new tlsFingerprint
  let name ← rustlsServerName libs serverName
  libs.rustls { versions, verifier } name stream

/-- The digest of the peer's certificate is compared after the handshake. -/
def checkPeer (expected : Fingerprint) (stream : SslStream) : Except String Unit := do
  let cert ← okOrElse stream.peerCertificate "TLS pool did not send a certificate"
  let actual := sha256Hex libs.sha256 (← cert)
  if actual ≠ expected.hex then
    .error ("TLS certificate fingerprint mismatch: expected " ++ expected.hex ++ ", got "
      ++ actual)
  else .ok ()

def connectOpenssl (stream : Wire) (serverName : String) (sendSni tlsAllow12 : Bool)
    (tlsFingerprint : Option String) : Except String SslStream := do
  let config : SslConfig :=
    { verify := .none
      minProtoVersion := some (if tlsAllow12 then .tls1_2 else .tls1_3)
      maxProtoVersion := some .tls1_3
      useServerNameIndication := sendSni
      verifyHostname := false }
  let tlsStream ← libs.openssl config serverName stream
  match ← Fingerprint.parseOptional tlsFingerprint with
  | none => .ok tlsStream
  | some expected => do
      checkPeer libs expected tlsStream
      return tlsStream

/-- `dial k` is `TcpStream::connect` at the `k`-th connection. -/
def StratumTransport.connect (dial : Nat → String → Except String Bytes)
    (settings : TransportSettings) : Except String StratumTransport := do
  let endpoint ← parsePoolEndpoint settings.url settings.sni
  let stream ← connectTcp (dial 0) endpoint settings.socks5
  if !settings.useTls then
    return .tcp stream
  match connectRustls libs stream endpoint.tlsServerName settings.tlsAllow12
      settings.tlsFingerprint with
  | .ok tlsStream => return .tlsRustls tlsStream
  | .error _ => do
      let stream ← connectTcp (dial 1) endpoint settings.socks5
      let tlsStream ← connectOpenssl libs stream endpoint.tlsServerName
        endpoint.sniOverridden settings.tlsAllow12 settings.tlsFingerprint
      return .tlsOpenSsl tlsStream

/-! ## The client over its transport -/

/-- The client with the transport it writes to. -/
structure Session where
  client : Client
  transport : Option StratumTransport

def Session.start : Session := { client := .start, transport := none }

inductive SessionInput where
  | client (i : ClientInput)
  /-- The client connects; this is what its connections reach. -/
  | connect (dial : Nat → String → Except String Bytes)

/-- The client, whose connections are those of `StratumTransport::connect`. What it does is
observed with the transport it has while it does so. -/
def sessionStep (settings : TransportSettings) (config : ClientConfig) :
    Lts.Step Session SessionInput (ClientObs × Option StratumTransport)
  | _, .client (.connect _) => none
  | s, .client i =>
      match clientStep config s.client i with
      | none => none
      | some (client, os) => some ({ s with client }, os.map (·, s.transport))
  | s, .connect dial =>
      let result := StratumTransport.connect libs dial settings
      match clientStep config s.client (.connect (result.map fun _ => ())) with
      | none => none
      | some (client, os) =>
          some ({ client, transport := result.toOption }, os.map (·, result.toOption))

end

end LiteXmr.Stratum
