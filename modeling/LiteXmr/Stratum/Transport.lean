/-
LiteXmr.Stratum.Transport — the certificate pin of the TLS transport
(`stratum/transport.rs`).

`Fingerprint` is what `--tls-fingerprint` is parsed into, and
`PoolCertVerifier` is what `connect_rustls` hands to rustls: rustls calls
`verify_server_cert` with the certificate chain and then one of the two
signature callbacks, with the transcript and the signature over it, by the
version that was negotiated. A handshake goes on only when both return `Ok`
(`verifyHandshake`). SHA-256 is outside the program and is a parameter.
-/
import LiteXmr.Lib.Base16
import LiteXmr.Rust.Str

namespace LiteXmr.Stratum

/-! ## Fingerprints -/

/-- `char::is_ascii_hexdigit`. -/
def isAsciiHexdigit (c : Char) : Bool := (Base16.value c).isSome

theorem toLower_mem_digitChars {c : Char} (h : isAsciiHexdigit c = true) :
    c.toLower ∈ Base16.digitChars := by
  have hascii : ∀ n < 128, isAsciiHexdigit (Char.ofNat n) = true →
      (Char.ofNat n).toLower ∈ Base16.digitChars := by decide
  have hlt : c.toNat < 128 := by
    have hle : ∀ d : Char, d.toNat < 128 → c ≤ d → c.toNat < 128 := fun d hd hcd =>
      Nat.lt_of_le_of_lt (UInt32.le_iff_toNat_le.mp hcd) hd
    unfold isAsciiHexdigit Base16.value at h
    split at h
    · next h9 => exact hle '9' (by decide) h9.2
    · split at h
      · next hf => exact hle 'f' (by decide) hf.2
      · split at h
        · next hF => exact hle 'F' (by decide) hF.2
        · cases h
  have hc := hascii c.toNat hlt
  rw [Char.ofNat_toNat] at hc
  exact hc h

/-- The hexadecimal digits of a text, in lower case. -/
def fingerprintDigits (raw : String) : String :=
  String.ofList ((raw.toList.filter isAsciiHexdigit).map Char.toLower)

theorem mem_digitChars_of_fingerprintDigits (raw : String) :
    ∀ c ∈ (fingerprintDigits raw).toList, c ∈ Base16.digitChars := by
  intro c hc
  rw [fingerprintDigits, String.toList_ofList] at hc
  obtain ⟨d, hd, rfl⟩ := List.mem_map.mp hc
  exact toLower_mem_digitChars (List.mem_filter.mp hd).2

/-- The text of a SHA-256 digest. -/
structure Fingerprint where
  hex : String
  digits : ∀ c ∈ hex.toList, c ∈ Base16.digitChars
  len : Str.len hex = 64
  deriving DecidableEq

def Fingerprint.parseOptional (raw : Option String) : Except String (Option Fingerprint) :=
  match (raw.map Str.trim).filter (· ≠ "") with
  | none => .ok none
  | some raw =>
      if h : Str.len (fingerprintDigits raw) = 64 then
        .ok (some ⟨fingerprintDigits raw, mem_digitChars_of_fingerprintDigits raw, h⟩)
      else .error "TLS fingerprint must be a SHA-256 hex digest"

/-! ## The verifier -/

/-- `rustls::DigitallySignedStruct`: the signature over the transcript, with
its scheme. -/
structure DigitallySignedStruct where
  scheme : UInt16
  signature : Bytes

inductive ProtocolVersion where
  | tls12
  | tls13
  deriving DecidableEq

/-- What a peer presents in a handshake, as far as the verifier sees it. -/
structure Handshake where
  version : ProtocolVersion
  endEntity : Bytes
  intermediates : List Bytes
  serverName : String
  ocspResponse : Bytes
  now : Nat
  message : Bytes
  dss : DigitallySignedStruct

structure PoolCertVerifier where
  fingerprint : Option Fingerprint
  deriving DecidableEq

section

variable (sha256 : Bytes → Bytes)

def sha256Hex (bytes : Bytes) : String := Base16.encode (sha256 bytes)

namespace PoolCertVerifier

def new (fingerprint : Option String) : Except String PoolCertVerifier :=
  (Fingerprint.parseOptional fingerprint).map fun fingerprint => { fingerprint }

/-- The error is the text of a `rustls::Error::General`. -/
def verifyServerCert (verifier : PoolCertVerifier) (endEntity : Bytes)
    (_intermediates : List Bytes) (_serverName : String) (_ocspResponse : Bytes) (_now : Nat) :
    Except String Unit :=
  match verifier.fingerprint with
  | none => .ok ()
  | some expected =>
      let actual := sha256Hex sha256 endEntity
      if actual ≠ expected.hex then
        .error ("TLS certificate fingerprint mismatch: expected " ++ expected.hex ++ ", got "
          ++ actual)
      else .ok ()

def verifyTls12Signature (_verifier : PoolCertVerifier) (_message _cert : Bytes)
    (_dss : DigitallySignedStruct) : Except String Unit := .ok ()

def verifyTls13Signature (_verifier : PoolCertVerifier) (_message _cert : Bytes)
    (_dss : DigitallySignedStruct) : Except String Unit := .ok ()

/-- The callbacks in the order rustls calls them. -/
def verifyHandshake (verifier : PoolCertVerifier) (handshake : Handshake) : Except String Unit :=
  match verifier.verifyServerCert sha256 handshake.endEntity handshake.intermediates
      handshake.serverName handshake.ocspResponse handshake.now with
  | .error e => .error e
  | .ok () =>
      match handshake.version with
      | .tls12 => verifier.verifyTls12Signature handshake.message handshake.endEntity handshake.dss
      | .tls13 => verifier.verifyTls13Signature handshake.message handshake.endEntity handshake.dss

end PoolCertVerifier

end

end LiteXmr.Stratum
