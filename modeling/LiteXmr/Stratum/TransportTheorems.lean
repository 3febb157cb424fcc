/-
LiteXmr.Stratum.TransportTheorems — what a certificate pin protects from.

A fingerprint that is accepted is the text of one digest (`decode_hex`), and
the verifier accepts exactly the handshakes that present a certificate with
this digest (`verifyHandshake_eq_ok_iff`). Whether the peer holds the key of
that certificate plays no part: `pinned_handshake_iff` says when a handshake
is accepted only from a peer that has signed it, and `replayed_certificate`
is a handshake where it is not.
-/
import LiteXmr.Stratum.Transport

namespace LiteXmr.Stratum

/-! ## Digests -/

namespace Fingerprint

variable (fingerprint : Fingerprint)

theorem length_hex : fingerprint.hex.toList.length = 64 := by
  have hsize : ∀ c ∈ Base16.digitChars, c.utf8Size = 1 := by
    intro c hc
    obtain ⟨v, -, hv, rfl⟩ := Base16.digit_value c hc
    exact Base16.utf8Size_digit ⟨v, hv⟩
  have hones : fingerprint.hex.toList.map Char.utf8Size
      = List.replicate fingerprint.hex.toList.length 1 := by
    rw [← List.map_const']
    exact List.map_congr_left fun c hc => hsize c (fingerprint.digits c hc)
  have hlen := fingerprint.len
  rw [Str.len, hones, List.sum_replicate_nat] at hlen
  simpa using hlen

/-- The digest the fingerprint is the text of. -/
def digest : Bytes := (Base16.decode fingerprint.hex).getD []

theorem decode_hex : Base16.decode fingerprint.hex = some fingerprint.digest := by
  have hvalue : ∀ c ∈ Base16.digitChars, (Base16.value c).isSome = true := by
    intro c hc
    obtain ⟨v, hv, -, -⟩ := Base16.digit_value c hc
    rw [hv]
    rfl
  have hsome : (Base16.decode fingerprint.hex).isSome = true :=
    Base16.isSome_decodeChars (by rw [fingerprint.length_hex])
      fun c hc => hvalue c (fingerprint.digits c hc)
  obtain ⟨bs, hbs⟩ := Option.isSome_iff_exists.mp hsome
  rw [digest, hbs]
  rfl

theorem encode_eq_hex_iff {bs : Bytes} :
    Base16.encode bs = fingerprint.hex ↔ bs = fingerprint.digest := by
  rw [Base16.encode_eq_iff fingerprint.digits, fingerprint.decode_hex, Option.some_inj]
  exact eq_comm

end Fingerprint

/-! ## Handshakes -/

section

variable (sha256 : Bytes → Bytes) {fingerprint : Fingerprint}

/-- With a pin, a handshake is accepted exactly when its certificate has the
pinned digest. -/
theorem verifyHandshake_eq_ok_iff {verifier : PoolCertVerifier}
    (hpin : verifier.fingerprint = some fingerprint) (handshake : Handshake) :
    verifier.verifyHandshake sha256 handshake = .ok () ↔
      sha256 handshake.endEntity = fingerprint.digest := by
  rw [← fingerprint.encode_eq_hex_iff]
  unfold PoolCertVerifier.verifyHandshake PoolCertVerifier.verifyServerCert
  rw [hpin]
  by_cases hhex : Base16.encode (sha256 handshake.endEntity) = fingerprint.hex
  · -- both signature callbacks are constant
    cases hversion : handshake.version with
    | tls12 => simp [sha256Hex, hhex, PoolCertVerifier.verifyTls12Signature]
    | tls13 => simp [sha256Hex, hhex, PoolCertVerifier.verifyTls13Signature]
  · simp [sha256Hex, hhex]

theorem fingerprint_of_new {raw : Option String} {verifier : PoolCertVerifier}
    (hparse : Fingerprint.parseOptional raw = .ok (some fingerprint))
    (hnew : PoolCertVerifier.new raw = .ok verifier) :
    verifier.fingerprint = some fingerprint := by
  rw [PoolCertVerifier.new, hparse] at hnew
  cases hnew
  rfl

/-- A handshake is accepted only with the pinned certificate and a valid
signature, unless the peer presents the pinned certificate with a signature
that is not valid. -/
theorem pinned_handshake_iff (Valid : Bytes → Bytes → DigitallySignedStruct → Prop)
    {raw : String} {verifier : PoolCertVerifier}
    (hparse : Fingerprint.parseOptional (some raw) = .ok (some fingerprint))
    (hnew : PoolCertVerifier.new (some raw) = .ok verifier) (handshake : Handshake) :
    (verifier.verifyHandshake sha256 handshake = .ok () →
        sha256 handshake.endEntity = fingerprint.digest ∧
          Valid handshake.endEntity handshake.message handshake.dss) ↔
      (sha256 handshake.endEntity ≠ fingerprint.digest ∨
        Valid handshake.endEntity handshake.message handshake.dss) := by
  have haccepted := verifyHandshake_eq_ok_iff sha256 (fingerprint_of_new hparse hnew) handshake
  rw [haccepted]
  constructor
  · intro hsecure
    by_cases hpinned : sha256 handshake.endEntity = fingerprint.digest
    · exact Or.inr (hsecure hpinned).2
    · exact Or.inl hpinned
  · intro hcond hpinned
    rcases hcond with hother | hvalid
    · exact absurd hpinned hother
    · exact ⟨hpinned, hvalid⟩

end

/-! ## A replayed certificate -/

/-- The bytes of the text `abc`, in place of a certificate, and their
SHA-256 digest. -/
def abcCertificate : Bytes := [0x61, 0x62, 0x63]

def abcFingerprint : String :=
  "BA:78:16:BF:8F:01:CF:EA:41:41:40:DE:5D:AE:22:23:B0:03:61:A3:96:17:7A:9C:B4:10:FF:61:F2:00:15:AD"

def abcSha256 (_ : Bytes) : Bytes :=
  [0xba, 0x78, 0x16, 0xbf, 0x8f, 0x01, 0xcf, 0xea, 0x41, 0x41, 0x40, 0xde, 0x5d, 0xae, 0x22, 0x23,
    0xb0, 0x03, 0x61, 0xa3, 0x96, 0x17, 0x7a, 0x9c, 0xb4, 0x10, 0xff, 0x61, 0xf2, 0x00, 0x15, 0xad]

def abcPin : Fingerprint :=
  { hex := "ba7816bf8f01cfea414140de5dae2223b00361a396177a9cb410ff61f20015ad"
    digits := @of_decide_eq_true _ (List.decidableBAll _ _) rfl
    len := by decide }

/-- A toy scheme, where a message is its own signature. -/
def EchoValid (_cert message : Bytes) (dss : DigitallySignedStruct) : Prop :=
  dss.signature = message

def abcHandshake (signature : Bytes) : Handshake :=
  { version := .tls13, endEntity := abcCertificate, intermediates := [], serverName := "pool"
    ocspResponse := [], now := 0, message := [1], dss := { scheme := 0x0403, signature } }

theorem parseOptional_abcFingerprint :
    Fingerprint.parseOptional (some abcFingerprint) = .ok (some abcPin) := by decide +kernel

theorem new_abcFingerprint :
    PoolCertVerifier.new (some abcFingerprint) = .ok { fingerprint := some abcPin } := by
  rw [PoolCertVerifier.new, parseOptional_abcFingerprint]
  rfl

theorem abcSha256_abcCertificate : abcSha256 abcCertificate = abcPin.digest := by decide +kernel

theorem verifyHandshake_abcHandshake (signature : Bytes) :
    PoolCertVerifier.verifyHandshake abcSha256 { fingerprint := some abcPin }
      (abcHandshake signature) = .ok () :=
  (verifyHandshake_eq_ok_iff abcSha256 rfl (abcHandshake signature)).mpr abcSha256_abcCertificate

theorem pinned_handshake_signed :
    abcSha256 abcCertificate = abcPin.digest ∧
      EchoValid abcCertificate [1] { scheme := 0x0403, signature := [1] } :=
  (pinned_handshake_iff abcSha256 EchoValid parseOptional_abcFingerprint new_abcFingerprint
    (abcHandshake [1])).mpr (Or.inr rfl) (verifyHandshake_abcHandshake [1])

/-- A peer that has the pinned certificate and not its key is accepted. -/
theorem replayed_certificate :
    Fingerprint.parseOptional (some abcFingerprint) = .ok (some abcPin) ∧
      PoolCertVerifier.new (some abcFingerprint) = .ok { fingerprint := some abcPin } ∧
      PoolCertVerifier.verifyHandshake abcSha256 { fingerprint := some abcPin } (abcHandshake [])
        = .ok () ∧
      ¬ EchoValid abcCertificate [1] { scheme := 0x0403, signature := [] } := by
  have hunsigned : ¬ EchoValid abcCertificate [1] { scheme := 0x0403, signature := [] } := by
    intro h
    cases h
  exact ⟨parseOptional_abcFingerprint, new_abcFingerprint, verifyHandshake_abcHandshake [],
    hunsigned⟩

end LiteXmr.Stratum
