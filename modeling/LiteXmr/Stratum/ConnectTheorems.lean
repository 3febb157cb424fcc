/-
LiteXmr.Stratum.ConnectTheorems — what the client's settings promise of its
transport, over every run.

`StratumTransport.Meets` says what the settings ask for: TLS or not, the
versions that are allowed, a certificate with the pinned digest. A transport
that `connect` returns meets them whichever library made it
(`meets_of_connect`): rustls refuses during its handshake, and what the
fallback accepts is compared afterwards. A fingerprint that cannot be read
makes the rustls side fail and is refused by the other one.

From there on it is a matter of the client's phases: it writes and reads only
where a connection was made before, so nothing it writes goes to, and nothing
it takes comes from, a peer that does not meet the settings
(`speaks_with_trusted`).
-/
import LiteXmr.Pool.AddressTheorems
import LiteXmr.Stratum.ClientTheorems
import LiteXmr.Stratum.Connect
import LiteXmr.Stratum.TransportTheorems

namespace LiteXmr.Stratum

open Lts

/-! ## What is asked of the libraries -/

/-- rustls negotiates a version of its configuration and goes on only when the verifier lets
it; OpenSSL negotiates a version between the bounds. -/
structure TlsLibraries.Lawful (libs : TlsLibraries) : Prop where
  rustlsVersion : ∀ {config name wire stream}, libs.rustls config name wire = .ok stream →
    stream.handshake.version ∈ config.versions
  rustlsVerified : ∀ {config name wire stream}, libs.rustls config name wire = .ok stream →
    config.verifier.verifyHandshake libs.sha256 stream.handshake = .ok ()
  opensslMin : ∀ {config name wire stream v}, libs.openssl config name wire = .ok stream →
    config.minProtoVersion = some v → v.number ≤ stream.version.number
  opensslMax : ∀ {config name wire stream v}, libs.openssl config name wire = .ok stream →
    config.maxProtoVersion = some v → stream.version.number ≤ v.number

/-! ## What is asked of a transport -/

namespace StratumTransport

/-- The version of TLS that is spoken, if it is TLS. -/
def tlsVersion : StratumTransport → Option SslVersion
  | .tcp _ => none
  | .tlsRustls stream => some stream.handshake.version.sslVersion
  | .tlsOpenSsl stream => some stream.version

/-- The certificate that the peer has presented. -/
def certificate : StratumTransport → Option Bytes
  | .tcp _ => none
  | .tlsRustls stream => some stream.handshake.endEntity
  | .tlsOpenSsl stream => stream.peerCertificate.bind (·.toOption)

/-- What the settings promise. -/
structure Meets (libs : TlsLibraries) (settings : TransportSettings)
    (transport : StratumTransport) : Prop where
  tls : transport.tlsVersion.isSome = settings.useTls
  version : ∀ v, transport.tlsVersion = some v →
    v = .tls1_3 ∨ v = .tls1_2 ∧ settings.tlsAllow12 = true
  pinned : settings.useTls = true →
    ∃ pin, Fingerprint.parseOptional settings.tlsFingerprint = .ok pin ∧
      ∀ expected, pin = some expected →
        ∃ cert, transport.certificate = some cert ∧ libs.sha256 cert = expected.digest

end StratumTransport

section Connect

variable {libs : TlsLibraries} {settings : TransportSettings}

theorem eq_of_number_eq {v w : SslVersion} (h : v.number = w.number) : v = w := by
  cases v <;> cases w <;> first | rfl | exact absurd h (by decide)

/-- A version between the bounds that `connect_openssl` sets. -/
theorem version_of_bounds {v : SslVersion} {allow12 : Bool}
    (hmin : (if allow12 then SslVersion.tls1_2 else .tls1_3).number ≤ v.number)
    (hmax : v.number ≤ SslVersion.tls1_3.number) :
    v = .tls1_3 ∨ v = .tls1_2 ∧ allow12 = true := by
  cases allow12 with
  | false => exact Or.inl (eq_of_number_eq (Nat.le_antisymm hmax hmin))
  | true =>
      cases v with
      | tls1_3 => exact Or.inl rfl
      | tls1_2 => exact Or.inr ⟨rfl, rfl⟩
      | ssl3 | tls1 | tls1_1 => exact absurd hmin (by decide)

theorem parseOptional_of_new {raw : Option String} {verifier : PoolCertVerifier}
    (h : PoolCertVerifier.new raw = .ok verifier) :
    Fingerprint.parseOptional raw = .ok verifier.fingerprint := by
  cases hparse : Fingerprint.parseOptional raw with
  | error e =>
      rw [PoolCertVerifier.new, hparse] at h
      cases h
  | ok pin =>
      rw [PoolCertVerifier.new, hparse] at h
      cases h
      rfl

theorem meets_of_rustls (hlibs : libs.Lawful) {wire : Wire} {name : String}
    {stream : RustlsStream} (htls : settings.useTls = true)
    (h : connectRustls libs wire name settings.tlsAllow12 settings.tlsFingerprint = .ok stream) :
    (StratumTransport.tlsRustls stream).Meets libs settings := by
  unfold connectRustls at h
  obtain ⟨verifier, hnew, h⟩ := bind_eq_ok h
  obtain ⟨serverName, -, h⟩ := bind_eq_ok h
  refine ⟨htls.symm, ?_, fun _ => ⟨verifier.fingerprint, parseOptional_of_new hnew, ?_⟩⟩
  · intro v hv
    cases hv
    have hversion := hlibs.rustlsVersion h
    cases hallow : settings.tlsAllow12 with
    | false =>
        simp only [hallow, Bool.false_eq_true, if_false, List.mem_singleton] at hversion
        exact Or.inl (by rw [hversion]; rfl)
    | true =>
        simp only [hallow, if_true, List.mem_cons, List.not_mem_nil, or_false] at hversion
        rcases hversion with hv | hv
        · exact Or.inl (by rw [hv]; rfl)
        · exact Or.inr ⟨by rw [hv]; rfl, rfl⟩
  · intro expected hpin
    exact ⟨stream.handshake.endEntity, rfl,
      (verifyHandshake_eq_ok_iff libs.sha256 hpin _).mp (hlibs.rustlsVerified h)⟩

/-- The comparison of `connect_openssl` succeeds on the pinned certificate only. -/
theorem digest_of_checkPeer {expected : Fingerprint} {stream : SslStream}
    (h : checkPeer libs expected stream = .ok ()) :
    ∃ cert, (StratumTransport.tlsOpenSsl stream).certificate = some cert ∧
      libs.sha256 cert = expected.digest := by
  unfold checkPeer at h
  obtain ⟨der, hpeer, h⟩ := bind_eq_ok h
  obtain ⟨cert, hder, h⟩ := bind_eq_ok h
  refine ⟨cert, ?_, ?_⟩
  · rw [StratumTransport.certificate, eq_some_of_okOrElse hpeer, hder]
    rfl
  · by_cases heq : Base16.encode (libs.sha256 cert) = expected.hex
    · exact expected.encode_eq_hex_iff.mp heq
    · simp [sha256Hex, heq] at h

theorem meets_of_openssl (hlibs : libs.Lawful) {wire : Wire} {name : String} {sendSni : Bool}
    {stream : SslStream} (htls : settings.useTls = true)
    (h : connectOpenssl libs wire name sendSni settings.tlsAllow12 settings.tlsFingerprint
      = .ok stream) :
    (StratumTransport.tlsOpenSsl stream).Meets libs settings := by
  unfold connectOpenssl at h
  obtain ⟨tlsStream, hconnect, h⟩ := bind_eq_ok h
  obtain ⟨pin, hpin, h⟩ := bind_eq_ok h
  have hchecked : stream = tlsStream ∧ ∀ expected, pin = some expected →
      checkPeer libs expected tlsStream = .ok () := by
    cases pin with
    | none =>
        cases h
        exact ⟨rfl, fun _ h => by cases h⟩
    | some expected =>
        obtain ⟨_, hcheck, h⟩ := bind_eq_ok h
        cases h
        exact ⟨rfl, fun _ h => by cases h; exact hcheck⟩
  obtain ⟨rfl, hcheck⟩ := hchecked
  refine ⟨htls.symm, ?_, fun _ => ⟨pin, hpin, fun expected hp => ?_⟩⟩
  · intro v hv
    cases hv
    exact version_of_bounds (hlibs.opensslMin hconnect rfl) (hlibs.opensslMax hconnect rfl)
  · exact digest_of_checkPeer (hcheck expected hp)

/-- What `connect` returns meets the settings. -/
theorem meets_of_connect (hlibs : libs.Lawful) {dial : Nat → String → Except String Bytes}
    {transport : StratumTransport}
    (h : StratumTransport.connect libs dial settings = .ok transport) :
    transport.Meets libs settings := by
  unfold StratumTransport.connect at h
  obtain ⟨endpoint, -, h⟩ := bind_eq_ok h
  obtain ⟨wire, -, h⟩ := bind_eq_ok h
  cases htls : settings.useTls with
  | false =>
      simp only [htls, Bool.not_false, if_true] at h
      cases h
      exact ⟨htls.symm, fun _ hv => (by cases hv), fun ht => (by cases htls.symm.trans ht)⟩
  | true =>
      simp only [htls, Bool.not_true, Bool.false_eq_true, if_false] at h
      split at h
      · next stream hrustls =>
          cases h
          exact meets_of_rustls hlibs htls hrustls
      · -- the second connection
        obtain ⟨again, -, h⟩ := bind_eq_ok h
        obtain ⟨stream, hopenssl, h⟩ := bind_eq_ok h
        cases h
        exact meets_of_openssl hlibs htls hopenssl

end Connect

/-! ## The client's phases -/

/-- The phases in which the client has a connection. -/
def Phase.connected : Phase → Bool
  | .sendingLogin _ _ | .awaitingReply _ _ | .mining _ _ | .writing _ _ | .keepalive _ => true
  | _ => false

/-- What is written to the connection, or was read from it. -/
def ClientObs.overTransport : ClientObs → Bool
  | .opened _ | .login _ _ | .loginReply _ | .message _ | .published _ | .submit _ _ _ _ => true
  | .attempt _ | .emitted _ | .returned => false

section Phases

variable {config : ClientConfig} {c c' : Client} {i : ClientInput} {os : List ClientObs}

theorem connected_of_inSession {phase : Phase} (h : phase.inSession = true) :
    phase.connected = true := by
  cases phase <;> first | rfl | cases h

theorem fail_not_connected (c : Client) (p : LoginProfile) (e : Error) :
    (c.fail p e).1.phase.connected = false ∧
      ∀ o ∈ (c.fail p e).2, o.overTransport = false := by
  rcases c.fail_cases p e with ⟨next, _, _, hf⟩ | hf
  · rw [hf]
    exact ⟨rfl, by simp [ClientObs.overTransport]⟩
  · rw [hf]
    exact ⟨rfl, by simp⟩

theorem finish_not_connected (c : Client) :
    c.finish.1.phase.connected = false ∧ ∀ o ∈ c.finish.2, o.overTransport = false :=
  ⟨rfl, by simp [Client.finish, ClientObs.overTransport]⟩

/-- A step other than that of connecting has a connection only if there was one, and so
has what it writes and takes. -/
theorem connected_step (hi : ∀ outcome, i ≠ .connect outcome)
    (hs : clientStep config c i = some (c', os)) :
    (c'.phase.connected = true ∨ ∃ o ∈ os, o.overTransport = true) →
      c.phase.connected = true := by
  have hquiet : ∀ {next : Client} {os : List ClientObs},
      next.phase.connected = false ∧ (∀ o ∈ os, o.overTransport = false) →
      (next.phase.connected = true ∨ ∃ o ∈ os, o.overTransport = true) →
        c.phase.connected = true := by
    rintro next os ⟨hphase, hos⟩ (h | ⟨o, ho, h⟩)
    · rw [hphase] at h
      cases h
    · rw [hos o ho] at h
      cases h
  cases clientMoves_of_step hs with
  | stop => simp
  | watch _ => simp
  | send _ => simp [ClientObs.overTransport]
  | attempt _ _ _ => exact hquiet ⟨rfl, by simp [ClientObs.overTransport]⟩
  | leave _ _ _ => exact hquiet (finish_not_connected c)
  | opened _ _ => exact absurd rfl (hi _)
  | loginSent _ hp => exact fun _ => by rw [hp]; rfl
  | loggedIn _ hp _ _ _ => exact fun _ => by rw [hp]; rfl
  | earlyMessage _ hp _ _ => exact fun _ => by rw [hp]; rfl
  | message _ hp _ _ => exact fun _ => by rw [hp]; rfl
  | skip _ hp _ => exact fun _ => connected_of_inSession hp
  | panic _ _ | overflow _ _ => exact hquiet ⟨rfl, by simp⟩
  | eof _ _ => exact hquiet (finish_not_connected c)
  | shutdown _ _ _ => exact hquiet (finish_not_connected c)
  | submit _ hp => exact fun _ => by rw [hp]; rfl
  | submitted _ hp => exact fun _ => by rw [hp]; rfl
  | failed _ _ => exact hquiet (fail_not_connected c _ _)
  | wake _ _ => exact hquiet ⟨rfl, by simp⟩

/-- A failed connect leads to no connection, and nothing is written or taken. -/
theorem not_connected_of_refused {text : String}
    (hs : clientStep config c (.connect (.error text)) = some (c', os)) :
    c'.phase.connected = false ∧ ∀ o ∈ os, o.overTransport = false := by
  cases clientMoves_of_step hs with
  | failed _ _ => exact fail_not_connected c _ _

end Phases

/-! ## Runs -/

section Session

variable {libs : TlsLibraries} {settings : TransportSettings} {config : ClientConfig}

/-- A client with a connection has a transport that meets the settings. -/
def Session.Trusted (libs : TlsLibraries) (settings : TransportSettings) (s : Session) : Prop :=
  s.client.phase.connected = true →
    ∃ transport, s.transport = some transport ∧ transport.Meets libs settings

/-- What goes over the transport goes over one that meets the settings. -/
def SpeaksTrusted (libs : TlsLibraries) (settings : TransportSettings)
    (x : ClientObs × Option StratumTransport) : Prop :=
  x.1.overTransport = true →
    ∃ transport, x.2 = some transport ∧ transport.Meets libs settings

/-- A step of the client other than that of connecting keeps the transport. -/
theorem client_of_sessionStep {s s' : Session} {i : ClientInput}
    {os : List (ClientObs × Option StratumTransport)}
    (hs : sessionStep libs settings config s (.client i) = some (s', os)) :
    (∀ outcome, i ≠ .connect outcome) ∧ s'.transport = s.transport ∧
      ∃ cos, clientStep config s.client i = some (s'.client, cos) ∧
        os = cos.map (·, s.transport) := by
  have hi : ∀ outcome, i ≠ .connect outcome := by
    rintro outcome rfl
    cases hs
  have heq : sessionStep libs settings config s (.client i) = (clientStep config s.client i).map
      fun r => ({ s with client := r.1 }, r.2.map (·, s.transport)) := by
    cases i with
    | connect outcome => exact absurd rfl (hi outcome)
    | _ =>
        simp only [sessionStep]
        split <;> simp [*]
  rw [heq] at hs
  obtain ⟨⟨client, cos⟩, hc, hs⟩ := Option.map_eq_some_iff.mp hs
  cases hs
  exact ⟨hi, rfl, cos, hc, rfl⟩

theorem trusted_step (hlibs : libs.Lawful) {s s' : Session} {i : SessionInput}
    {os : List (ClientObs × Option StratumTransport)} (h : s.Trusted libs settings)
    (hs : sessionStep libs settings config s i = some (s', os)) :
    s'.Trusted libs settings ∧ ∀ x ∈ os, SpeaksTrusted libs settings x := by
  cases i with
  | connect dial =>
      simp only [sessionStep] at hs
      split at hs
      · cases hs
      · next client cos hc =>
          cases hs
          cases hr : StratumTransport.connect libs dial settings with
          | error text =>
              rw [hr] at hc
              obtain ⟨hphase, hcos⟩ := not_connected_of_refused hc
              refine ⟨fun hconn => by simp [hphase] at hconn, ?_⟩
              simp only [List.forall_mem_map]
              intro o ho hover
              rw [hcos o ho] at hover
              cases hover
          | ok transport =>
              have hmeets := meets_of_connect hlibs hr
              refine ⟨fun _ => ⟨transport, rfl, hmeets⟩, ?_⟩
              simp only [List.forall_mem_map]
              exact fun o _ _ => ⟨transport, rfl, hmeets⟩
  | client i =>
      obtain ⟨hi, htransport, cos, hc, rfl⟩ := client_of_sessionStep hs
      have hstep := connected_step hi hc
      refine ⟨fun hconn => htransport ▸ h (hstep (Or.inl hconn)), ?_⟩
      simp only [List.forall_mem_map]
      exact fun o ho hover => h (hstep (Or.inr ⟨o, ho, hover⟩))

/-- Whatever the network does, over every reconnect and fallback: the client writes to, and
takes lines from, only transports that are TLS if and only if it was asked for, of an allowed
version, and whose peer has presented a certificate with the pinned digest. -/
theorem speaks_with_trusted (hlibs : libs.Lawful) {is : List SessionInput} {s : Session}
    {tr : List (ClientObs × Option StratumTransport)}
    (h : Run (sessionStep libs settings config) (fun _ _ => True) .start is s tr) :
    ∀ x ∈ tr, SpeaksTrusted libs settings x := by
  have hboth : s.Trusted libs settings ∧ ∀ x ∈ tr, SpeaksTrusted libs settings x := by
    refine h.invariant (P := fun s tr => Session.Trusted libs settings s ∧
      ∀ x ∈ tr, SpeaksTrusted libs settings x) ⟨fun h => (by cases h), by simp⟩ ?_
    intro s s' tr os i hp _ hs
    obtain ⟨htrusted, hos⟩ := trusted_step hlibs hp.1 hs
    exact ⟨htrusted, List.forall_mem_append.mpr ⟨hp.2, hos⟩⟩
  exact hboth.2

end Session

/-! ### A pool that only OpenSSL can talk to -/

/-- A pool that speaks TLS 1.2 with cipher suites that rustls does not have. -/
def legacyPool : TlsLibraries :=
  { dnsName := fun name => .ok (.dnsName name)
    rustls := fun _ _ _ => .error "received fatal alert: HandshakeFailure"
    openssl := fun config _ wire =>
      if config.minProtoVersion.all (·.number ≤ SslVersion.tls1_2.number) ∧
          config.maxProtoVersion.all (SslVersion.tls1_2.number ≤ ·.number) then
        .ok { version := .tls1_2, peerCertificate := some (.ok abcCertificate), wire }
      else .error "unsupported protocol"
    sha256 := abcSha256 }

theorem lawful_legacyPool : legacyPool.Lawful where
  rustlsVersion h := by cases h
  rustlsVerified h := by cases h
  opensslMin := by
    intro config name wire stream v h hv
    simp only [legacyPool, hv, Option.all_some, decide_eq_true_eq] at h
    split at h
    · next hbounds =>
        cases h
        exact hbounds.1
    · cases h
  opensslMax := by
    intro config name wire stream v h hv
    simp only [legacyPool, hv, Option.all_some, decide_eq_true_eq] at h
    split at h
    · next hbounds =>
        cases h
        exact hbounds.2
    · cases h

def legacySettings : TransportSettings :=
  { url := "pool.example.com:443", useTls := true, sni := none, tlsAllow12 := true
    tlsFingerprint := some abcFingerprint, socks5 := none }

/-- The session is begun, its connection made with OpenSSL, the login written. -/
def legacyInputs : List SessionInput :=
  [.client .check, .connect fun _ _ => .ok [], .client (.loginWritten (.ok ()))]

theorem speaks_with_trusted_legacy :
    ∃ s tr, Run (sessionStep legacyPool legacySettings sampleConfig) (fun _ _ => True) .start
        legacyInputs s tr ∧
      tr.any (·.1.overTransport) = true ∧
        ∀ x ∈ tr, SpeaksTrusted legacyPool legacySettings x := by
  have hexec : (exec (sessionStep legacyPool legacySettings sampleConfig) .start
      legacyInputs).any (fun r => r.2.any (·.1.overTransport)) = true := by
    decide +kernel
  obtain ⟨s, tr, hrun, htest⟩ := anyRun_of_exec_test (p := fun (_ : Session)
    (tr : List (ClientObs × Option StratumTransport)) => tr.any (·.1.overTransport)) hexec
  exact ⟨s, tr, hrun, htest, speaks_with_trusted lawful_legacyPool hrun⟩

end LiteXmr.Stratum
