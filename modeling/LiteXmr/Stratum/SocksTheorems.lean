/-
LiteXmr.Stratum.SocksTheorems — the SOCKS5 handshake, against RFC 1928.

`IsReply` is what a proxy that grants the connection sends, and `decodeConnect`
is how it reads a request. `speaks_socks5Connect` puts the grammar of the whole
handshake together from those of its parts: it succeeds on the streams that begin
with such a reply and takes the reply off, to the byte. The stream of the pool
follows behind it.
-/
import LiteXmr.Doh.QueryTheorems
import LiteXmr.Stratum.Socks

namespace LiteXmr.Stratum

open Dialogue

/-! ## The protocol -/

/-- The bound address in a reply, behind its type: an IPv4 address, a name behind its length or
an IPv6 address, each with a port. -/
inductive IsBound : Bytes → Prop where
  | ipv4 {rest : Bytes} (h : rest.length = 6) : IsBound (0x01 :: rest)
  | name {len : UInt8} {rest : Bytes} (h : rest.length = len.toNat + 2) :
      IsBound (0x03 :: len :: rest)
  | ipv6 {rest : Bytes} (h : rest.length = 18) : IsBound (0x04 :: rest)

/-- The choice of no authentication, and the reply to a request that was granted. -/
def IsReply (reply : Bytes) : Prop :=
  ∃ reserved bound, reply = [0x05, 0x00] ++ ([0x05, 0x00, reserved] ++ bound) ∧ IsBound bound

inductive Destination where
  | ip (ip : IpAddr)
  | name (bytes : Bytes)
  deriving DecidableEq

/-- A CONNECT request: its address and port. -/
def decodeConnect : Bytes → Option (Destination × UInt16)
  | ver :: cmd :: reserved :: atyp :: rest =>
      if ver ≠ 0x05 ∨ cmd ≠ 0x01 ∨ reserved ≠ 0x00 then none
      else if atyp = 0x01 then
        if h : (rest.take 4).length = 4 ∧ rest.length = 6 then
          some (.ip (.v4 ⟨rest.take 4, h.1⟩), UInt16.ofNat (Bytes.natOfBe (rest.drop 4)))
        else none
      else if atyp = 0x04 then
        if h : (rest.take 16).length = 16 ∧ rest.length = 18 then
          some (.ip (.v6 ⟨rest.take 16, h.1⟩), UInt16.ofNat (Bytes.natOfBe (rest.drop 16)))
        else none
      else if atyp = 0x03 then
        match rest with
        | len :: rest =>
            if rest.length = len.toNat + 2 then
              some (.name (rest.take len.toNat), UInt16.ofNat (Bytes.natOfBe (rest.drop len.toNat)))
            else none
        | [] => none
      else none
  | _ => none

/-- What a request has to name. -/
def destinationOf (host : String) : Destination :=
  match Net.parseIpAddr host with
  | some ip => .ip ip
  | none => .name (Str.asBytes host)

/-- A host that a request has room for. -/
def Reachable (host : String) : Prop := (Net.parseIpAddr host).isSome = true ∨ Str.len host ≤ 255

/-! ## Requests -/

theorem natOfBe_port (port : UInt16) :
    UInt16.ofNat (Bytes.natOfBe (Bytes.beOfNat 2 port.toNat)) = port := by
  have hport := port.toNat_lt
  have hfits : port.toNat < 256 ^ 2 := by omega
  rw [Bytes.natOfBe_beOfNat, Nat.mod_eq_of_lt hfits, UInt16.ofNat_toNat]

/-- An address of `n` bytes is read back from in front of its port. -/
theorem read_address {n : Nat} (ip : { bytes : Bytes // bytes.length = n } → IpAddr)
    (octets : { bytes : Bytes // bytes.length = n }) (port : UInt16) :
    (let rest := octets.val ++ Bytes.beOfNat 2 port.toNat
      if h : (rest.take n).length = n ∧ rest.length = n + 2 then
        some (Destination.ip (ip ⟨rest.take n, h.1⟩), UInt16.ofNat (Bytes.natOfBe (rest.drop n)))
      else none) = some (.ip (ip octets), port) := by
  have hlen := octets.property
  have hboth : ((octets.val ++ Bytes.beOfNat 2 port.toNat).take n).length = n ∧
      (octets.val ++ Bytes.beOfNat 2 port.toNat).length = n + 2 := by
    rw [List.take_left' hlen, List.length_append, hlen, Bytes.length_beOfNat]
    exact ⟨rfl, rfl⟩
  rw [dif_pos hboth]
  simp only [List.take_left' hlen, List.drop_left' hlen, natOfBe_port]

theorem decodeConnect_name {name : Bytes} (hle : name.length ≤ 255) (port : UInt16) :
    decodeConnect (0x05 :: 0x01 :: 0x00 :: 0x03 :: UInt8.ofNat name.length ::
      (name ++ Bytes.beOfNat 2 port.toNat)) = some (.name name, port) := by
  have hlen : (UInt8.ofNat name.length).toNat = name.length := by
    rw [UInt8.toNat_ofNat', Nat.mod_eq_of_lt (by omega)]
  have hfits :
      (name ++ Bytes.beOfNat 2 port.toNat).length = (UInt8.ofNat name.length).toNat + 2 := by
    rw [List.length_append, Bytes.length_beOfNat, hlen]
  change (if _ = _ then _ else none) = _
  rw [if_pos hfits, hlen, List.take_left, List.drop_left, natOfBe_port]

/-- The request carries the host and the port it was made for. -/
theorem decodeConnect_request {host : String} {port : UInt16} {request : Bytes}
    (h : connectRequest host port = .ok request) :
    decodeConnect request = some (destinationOf host, port) := by
  unfold connectRequest at h
  unfold destinationOf
  split at h
  · next octets hip =>
      cases h
      rw [hip]
      exact read_address .v4 octets port
  · next octets hip =>
      cases h
      rw [hip]
      exact read_address .v6 octets port
  · next hip =>
      simp only at h
      split at h
      · cases h
      · next hle =>
          cases h
          rw [hip]
          exact decodeConnect_name (Nat.le_of_not_lt hle) port

theorem exists_request_iff (host : String) (port : UInt16) :
    (∃ request, connectRequest host port = .ok request) ↔ Reachable host := by
  unfold connectRequest Reachable
  cases hip : Net.parseIpAddr host with
  | some ip =>
      cases ip with
      | v4 octets => simp [Except.map]
      | v6 octets => simp [Except.map]
  | none =>
      simp only [length_asBytes, Option.isSome_none, Bool.false_eq_true, false_or]
      by_cases hlong : 255 < Str.len host
      · rw [if_pos hlong]
        refine ⟨fun ⟨request, h⟩ => ?_, fun hle => absurd hle (by omega)⟩
        cases h
      · rw [if_neg hlong]
        exact ⟨fun _ => Nat.le_of_not_lt hlong, fun _ => ⟨_, rfl⟩⟩

/-! ## The handshake -/

theorem speaks_greet :
    Speaks greet fun read written _ => read = [0x05, 0x00] ∧ written = [0x05, 0x01, 0x00] := by
  refine (speaks_bind (speaks_writeAll _) fun _ => speaks_bind (speaks_readExact _ _)
    fun _ => speaks_bailIf _ _).congr fun read written _ => ?_
  constructor
  · intro ⟨r₁, r₂, w₁, w₂, _, hread, hwritten, ⟨hr₁, hw₁⟩, r₃, r₄, w₃, w₄, hello, hread', hwritten',
      ⟨hr₃, _, hw₃⟩, hr₄, hw₄, hhello⟩
    subst hread hwritten hread' hwritten' hr₁ hw₁ hr₃ hw₃ hr₄ hw₄
    rw [not_not] at hhello
    exact ⟨by rw [List.nil_append, List.append_nil, hhello], rfl⟩
  · intro ⟨hread, hwritten⟩
    exact ⟨[], read, written, [], (), rfl, (List.append_nil _).symm, ⟨rfl, hwritten⟩,
      read, [], [], [], read, (List.append_nil _).symm, rfl, ⟨rfl, by rw [hread]; rfl, rfl⟩,
      rfl, rfl, not_not.mpr hread⟩

/-- Four bytes, by their values. -/
theorem length_eq_four_iff {bytes : Bytes} :
    bytes.length = 4 ↔ ∃ a b c d, bytes = [a, b, c, d] := by
  refine ⟨fun h => ?_, fun ⟨a, b, c, d, h⟩ => by rw [h]; rfl⟩
  match bytes, h with
  | [a, b, c, d], _ => exact ⟨a, b, c, d, rfl⟩

theorem speaks_askConnect (host : String) (port : UInt16) :
    Speaks (askConnect host port) fun read written atyp =>
      (∃ reserved, read = [0x05, 0x00, reserved, atyp]) ∧
        connectRequest host port = .ok written := by
  refine (speaks_bind (speaks_ofExcept _) fun _ => speaks_bind (speaks_writeAll _) fun _ =>
    speaks_bind (speaks_readExact _ _) fun _ => speaks_bind (speaks_bailIf _ _) fun _ =>
      speaks_pure _).congr fun read written atyp => ?_
  constructor
  · intro ⟨r₁, r₂, w₁, w₂, request, hread, hwritten, ⟨hr₁, hw₁, hrequest⟩, r₃, r₄, w₃, w₄, _,
      hread', hwritten', ⟨hr₃, hw₃⟩, r₅, r₆, w₅, w₆, head, hread'', hwritten'', ⟨hr₅, hlen, hw₅⟩,
      r₇, r₈, w₇, w₈, _, hread''', hwritten''', ⟨hr₇, hw₇, hgranted⟩, hr₈, hw₈, hatyp⟩
    subst hread hwritten hread' hwritten' hread'' hwritten'' hread''' hwritten'''
    subst hr₁ hw₁ hr₃ hw₃ hr₅ hw₅ hr₇ hw₇ hr₈ hw₈
    obtain ⟨ver, status, reserved, atyp', rfl⟩ := length_eq_four_iff.mp hlen
    obtain ⟨hver, hstatus⟩ := not_or.mp hgranted
    rw [not_not] at hver hstatus
    change ver = 0x05 at hver
    change status = 0x00 at hstatus
    change atyp = atyp' at hatyp
    rw [hver, hstatus, hatyp]
    exact ⟨⟨reserved, rfl⟩, by simpa using hrequest⟩
  · intro ⟨⟨reserved, hread⟩, hrequest⟩
    refine ⟨[], read, [], written, written, rfl, rfl, ⟨rfl, rfl, hrequest⟩,
      [], read, written, [], (), rfl, (List.append_nil _).symm, ⟨rfl, rfl⟩,
      read, [], [], [], read, (List.append_nil _).symm, rfl, ⟨rfl, by rw [hread]; rfl, rfl⟩,
      [], [], [], [], (), rfl, rfl, ⟨rfl, rfl, ?_⟩, rfl, rfl, by rw [hread]; rfl⟩
    rw [hread]
    exact fun hbad => hbad.elim (fun hver => hver rfl) (fun hstatus => hstatus rfl)

theorem speaks_readExact_unit (n : Nat) :
    Speaks (do let _ ← readExact earlyEof n; return : Dialogue String Unit) fun read written _ =>
      read.length = n ∧ written = [] := by
  refine (speaks_bind (speaks_readExact _ _) fun _ => speaks_pure ()).congr
    fun read written _ => ?_
  constructor
  · intro ⟨r₁, r₂, w₁, w₂, bytes, hread, hwritten, ⟨hr₁, hlen, hw₁⟩, hr₂, hw₂, _⟩
    subst hread hwritten hr₁ hw₁ hr₂ hw₂
    exact ⟨by rw [List.append_nil]; exact hlen, rfl⟩
  · intro ⟨hlen, hwritten⟩
    exact ⟨read, [], [], [], read, (List.append_nil _).symm, hwritten, ⟨rfl, hlen, rfl⟩, rfl, rfl,
      rfl⟩

theorem speaks_skipBound (atyp : UInt8) :
    Speaks (skipBound atyp) fun read written _ => IsBound (atyp :: read) ∧ written = [] := by
  have hname : Speaks (do
      let len ← readExact earlyEof 1
      let _ ← readExact earlyEof ((len.getD 0 0).toNat + 2)
      return : Dialogue String Unit) fun read written _ =>
      (∃ len rest, read = len :: rest ∧ rest.length = len.toNat + 2) ∧ written = [] := by
    refine (speaks_bind (speaks_readExact _ _) fun _ => speaks_readExact_unit _).congr
      fun read written _ => ?_
    constructor
    · intro ⟨r₁, r₂, w₁, w₂, bytes, hread, hwritten, ⟨hr₁, hlen, hw₁⟩, hr₂, hw₂⟩
      obtain ⟨len, rfl⟩ := List.length_eq_one_iff.mp hlen
      exact ⟨⟨len, r₂, by rw [hread, hr₁]; rfl, hr₂⟩, by rw [hwritten, hw₁, hw₂]; rfl⟩
    · intro ⟨⟨len, rest, hread, hrest⟩, hwritten⟩
      exact ⟨[len], rest, [], [], [len], hread, hwritten, ⟨rfl, rfl, rfl⟩, hrest, rfl⟩
  refine (speaks_ite (speaks_readExact_unit 6) (speaks_ite hname
    (speaks_ite (speaks_readExact_unit 18) (speaks_fail _)))).congr fun read written _ => ?_
  constructor
  · rintro (⟨rfl, hlen, hw⟩ |
      ⟨-, ⟨rfl, ⟨len, rest, rfl, hlen⟩, hw⟩ | ⟨-, ⟨rfl, hlen, hw⟩ | ⟨-, h⟩⟩⟩)
    · exact ⟨.ipv4 hlen, hw⟩
    · exact ⟨.name hlen, hw⟩
    · exact ⟨.ipv6 hlen, hw⟩
    · exact h.elim
  · intro ⟨hbound, hw⟩
    cases hbound with
    | ipv4 hlen => exact Or.inl ⟨rfl, hlen, hw⟩
    | name hlen => exact Or.inr ⟨by decide, Or.inl ⟨rfl, ⟨_, _, rfl, hlen⟩, hw⟩⟩
    | ipv6 hlen => exact Or.inr ⟨by decide, Or.inr ⟨by decide, Or.inl ⟨rfl, hlen, hw⟩⟩⟩

/-- The grammar of the handshake. -/
theorem speaks_socks5Connect (host : String) (port : UInt16) :
    Speaks (socks5Connect host port) fun read written _ => IsReply read ∧
      ∃ request, connectRequest host port = .ok request ∧
        written = [0x05, 0x01, 0x00] ++ request := by
  refine (speaks_bind speaks_greet fun _ => speaks_bind (speaks_askConnect host port)
    fun atyp => speaks_skipBound atyp).congr fun read written _ => ?_
  constructor
  · intro ⟨r₁, r₂, w₁, w₂, _, hread, hwritten, ⟨hr₁, hw₁⟩, r₃, r₄, w₃, w₄, atyp, hread', hwritten',
      ⟨⟨reserved, hr₃⟩, hrequest⟩, hbound, hw₄⟩
    subst hread hwritten hread' hwritten' hr₁ hw₁ hr₃ hw₄
    exact ⟨⟨reserved, atyp :: r₄, rfl, hbound⟩, w₃, hrequest, by rw [List.append_nil]⟩
  · intro ⟨⟨reserved, bound, hread, hbound⟩, request, hrequest, hwritten⟩
    obtain ⟨atyp, rest, hcons⟩ : ∃ atyp rest, bound = atyp :: rest := by
      cases hbound with
      | ipv4 _ => exact ⟨_, _, rfl⟩
      | name _ => exact ⟨_, _, rfl⟩
      | ipv6 _ => exact ⟨_, _, rfl⟩
    rw [hcons] at hread hbound
    exact ⟨_, _, _, _, (), hread, hwritten, ⟨rfl, rfl⟩, [0x05, 0x00, reserved, atyp], rest,
      request, [], atyp, rfl, (List.append_nil _).symm, ⟨⟨reserved, rfl⟩, hrequest⟩, hbound, rfl⟩

/-- Without a request, only the greeting is sent. -/
theorem sends_greeting {host : String} {port : UInt16} (h : ¬ Reachable host) :
    Sends (socks5Connect host port) [0x05, 0x01, 0x00] := by
  have hgreet : Sends greet [0x05, 0x01, 0x00] :=
    (sends_writeAll _).bind fun _ => (sends_readExact _ _).bind fun _ => sends_bailIf _ _
  refine hgreet.bind fun _ => ?_
  have hrequest : ∃ e, connectRequest host port = .error e := by
    cases hresult : connectRequest host port with
    | ok request => exact absurd ((exists_request_iff host port).mp ⟨request, hresult⟩) h
    | error e => exact ⟨e, rfl⟩
  obtain ⟨e, he⟩ := hrequest
  intro wire
  rw [bind_apply, askConnect, he]
  exact (List.append_nil wire.sent).symm

/-- The handshake, on every stream of a proxy: when it succeeds, what it takes off the stream,
and what it sends. -/
theorem socks5_handshake (host : String) (port : UInt16) (stream : Bytes) :
    let after := socks5Connect host port ⟨stream, []⟩
    (after.1 = .ok () ↔ (∃ reply, IsReply reply ∧ reply <+: stream) ∧ Reachable host) ∧
      (after.1 = .ok () → (∃ reply, IsReply reply ∧ stream = reply ++ after.2.incoming) ∧
        ∃ request, after.2.sent = [0x05, 0x01, 0x00] ++ request ∧
          decodeConnect request = some (destinationOf host, port)) ∧
      (¬ Reachable host → after.2.sent = [0x05, 0x01, 0x00]) := by
  have hspeaks := speaks_socks5Connect host port ⟨stream, []⟩ ()
  generalize hafter : socks5Connect host port ⟨stream, []⟩ = after at hspeaks
  obtain ⟨result, wire⟩ := after
  have hok : result = .ok () → ∃ read written, stream = read ++ wire.incoming ∧
      wire.sent = [] ++ written ∧ IsReply read ∧ ∃ request,
        connectRequest host port = .ok request ∧ written = [0x05, 0x01, 0x00] ++ request :=
    fun h => (hspeaks wire).mp (by rw [h])
  refine ⟨⟨fun h => ?_, fun ⟨⟨reply, hreply, rest, hstream⟩, hreachable⟩ => ?_⟩, fun h => ?_,
    fun h => ?_⟩
  · obtain ⟨read, written, hread, -, hreply, request, hrequest, -⟩ := hok h
    exact ⟨⟨read, hreply, hread ▸ List.prefix_append _ _⟩,
      (exists_request_iff host port).mp ⟨request, hrequest⟩⟩
  · obtain ⟨request, hrequest⟩ := (exists_request_iff host port).mpr hreachable
    have hrun := (hspeaks ⟨rest, [0x05, 0x01, 0x00] ++ request⟩).mpr
      ⟨reply, [0x05, 0x01, 0x00] ++ request, hstream.symm, rfl, hreply, request, hrequest, rfl⟩
    exact congrArg Prod.fst hrun
  · obtain ⟨read, written, hread, hwritten, hreply, request, hrequest, hsent⟩ := hok h
    exact ⟨⟨read, hreply, hread⟩, request, by rw [hwritten, hsent]; rfl,
      decodeConnect_request hrequest⟩
  · have hsent : Sends (socks5Connect host port) [0x05, 0x01, 0x00] := sends_greeting h
    have hwritten := hsent ⟨stream, []⟩
    rw [hafter] at hwritten
    exact hwritten

/-- A proxy bound to a name of two bytes, and the first byte of the pool. -/
example : socks5Connect "10.0.0.1" 3333 ⟨[5, 0, 5, 0, 0, 3, 2, 0x6C, 0x68, 1, 2, 0x7B], []⟩
    = (.ok (), ⟨[0x7B], [5, 1, 0, 5, 1, 0, 1, 10, 0, 0, 1, 13, 5]⟩) := by decide

end LiteXmr.Stratum
