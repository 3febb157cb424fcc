/-
LiteXmr.Pool.ResolveTheorems — resolving the pool over DoH changes the address
that is dialled and nothing else.

The controller prints the address that DoH has found and puts the text in the
place of the pool address, to be read again. `parsePoolEndpoint_socketAddr` is
that round trip, for both kinds of addresses. The name of the server would be the
IP address now, so the controller sets the override to the host of the pool; for a
host of letters, digits, dots and hyphens this is the name that the endpoint had
before (`doh_is_transparent`).
-/
import LiteXmr.Config.SniTheorems
import LiteXmr.Rust.NetTheorems

namespace LiteXmr

/-! ## Reading a printed address -/

theorem authorityOf_plain {cs : List Char} (h : ∀ c ∈ cs, c ≠ '/' ∧ c ≠ '?' ∧ c ≠ '#') :
    authorityOf (String.ofList cs) = String.ofList cs := by
  have hscheme : Str.splitOnceChars "://".toList cs = none := by
    rw [Str.splitOnceChars_eq_none_iff (by decide)]
    exact fun hpart => (h '/' (hpart.subset (by decide))).1 rfl
  have hpath : Str.splitAtChars (fun c => c == '/' || c == '?' || c == '#') cs = none := by
    refine Str.splitAtChars_eq_none fun c hc => ?_
    obtain ⟨hslash, hquery, hfragment⟩ := h c hc
    simp only [beq_eq_false_iff_ne.mpr hslash, beq_eq_false_iff_ne.mpr hquery,
      beq_eq_false_iff_ne.mpr hfragment, Bool.or_self]
  unfold authorityOf
  simp only [Str.splitOnce, Str.splitAtFirst, String.toList_ofList, hscheme, hpath,
    Option.map_none]

theorem toString_port (port : UInt16) :
    toString port.toNat = String.ofList (Nat.toDigits 10 port.toNat) :=
  Nat.toString_eq_ofList_toDigits

theorem digits_ne {port : UInt16} {c : Char} (hc : c.isDigit = false) :
    c ∉ Nat.toDigits 10 port.toNat := by
  intro hmem
  rw [Nat.isDigit_of_mem_toDigits (by omega) (by omega) hmem] at hc
  cases hc

/-- The endpoint of an authority whose text and parts are known. -/
theorem parsePoolEndpoint_of_parts {cs host : List Char} {port : UInt16}
    (htrim : Str.Trimmed cs) (hplain : ∀ c ∈ cs, c ≠ '/' ∧ c ≠ '?' ∧ c ≠ '#') (hne : cs ≠ [])
    (hhost : host ≠ [])
    (hparts : hostAndPort (String.ofList cs) (String.ofList cs) = .ok (String.ofList host, port))
    (sniOverride : Option String) :
    parsePoolEndpoint (String.ofList cs) sniOverride = .ok {
      connectAddr := connectAddrOf (String.ofList host) port
      host := String.ofList host
      port := port
      tlsServerName := (sniName sniOverride).getD (String.ofList host)
      sniOverridden := (sniName sniOverride).isSome } := by
  have hempty : ∀ ds : List Char, ds ≠ [] → String.ofList ds ≠ "" := by
    intro ds hds heq
    have htoList := congrArg String.toList heq
    rw [String.toList_ofList] at htoList
    exact hds htoList
  have htext : Str.trim (String.ofList cs) = String.ofList cs :=
    Str.trim_of_trimmed (by rw [String.toList_ofList]; exact htrim)
  unfold parsePoolEndpoint
  simp only [htext, authorityOf_plain hplain, if_neg (hempty _ hne), hparts]
  change (if String.ofList host = "" then _ else _) = _
  rw [if_neg (hempty _ hhost)]
  rfl

theorem contains_colon_iff {host : List Char} :
    Str.contains (String.ofList host) ":" = true ↔ ':' ∈ host := by
  rw [Str.contains_iff, String.toList_ofList (l := host)]
  exact List.singleton_infix_iff ':' host

/-- What a printed port is read with, behind a host without brackets. -/
theorem hostAndPort_plain {host : List Char} {port : UInt16} (hbracket : '[' ∉ host)
    (hcolon : ':' ∉ host) (hne : host ≠ []) (raw : String) :
    hostAndPort (String.ofList (host ++ ':' :: Nat.toDigits 10 port.toNat)) raw
      = .ok (String.ofList host, port) := by
  have hstrip : Str.stripPrefix (String.ofList (host ++ ':' :: Nat.toDigits 10 port.toNat)) '['
      = none := by
    cases host with
    | nil => exact absurd rfl hne
    | cons c host =>
        rw [Str.stripPrefix, String.toList_ofList]
        exact if_neg fun heq => hbracket (by rw [heq]; exact List.mem_cons_self)
  have hplain : Str.contains (String.ofList host) ":" = false := by
    rw [Bool.eq_false_iff, Ne, contains_colon_iff]
    exact hcolon
  unfold hostAndPort
  rw [hstrip, Str.rsplitOnce_append (digits_ne (by decide))]
  change (if _ then _ else _) = _
  rw [if_neg (by rw [hplain]; exact Bool.false_ne_true), parsePort, Net.parseU16_toDigits]
  rfl

/-- The same for a host in brackets. -/
theorem hostAndPort_bracketed {host : List Char} {port : UInt16} (hclose : ']' ∉ host)
    (raw : String) :
    hostAndPort (String.ofList ('[' :: host ++ ']' :: ':' :: Nat.toDigits 10 port.toNat)) raw
      = .ok (String.ofList host, port) := by
  have hsplit : Str.splitAtFirst (String.ofList (host ++ ']' :: ':' :: Nat.toDigits 10 port.toNat))
      (· == ']') = some (String.ofList host,
        String.ofList (':' :: Nat.toDigits 10 port.toNat)) := by
    rw [Str.splitAtFirst, String.toList_ofList, Str.splitAtChars_append ?_ rfl]
    · rfl
    · exact fun c hc => beq_eq_false_iff_ne.mpr fun heq => hclose (by rw [← heq]; exact hc)
  have hstrip : Str.stripPrefix
      (String.ofList ('[' :: host ++ ']' :: ':' :: Nat.toDigits 10 port.toNat)) '['
      = some (String.ofList (host ++ ']' :: ':' :: Nat.toDigits 10 port.toNat)) := by
    rw [Str.stripPrefix, String.toList_ofList]
    rfl
  have hcolon : Str.stripPrefix (String.ofList (':' :: Nat.toDigits 10 port.toNat)) ':'
      = some (String.ofList (Nat.toDigits 10 port.toNat)) := by
    rw [Str.stripPrefix, String.toList_ofList]
    rfl
  unfold hostAndPort
  rw [hstrip]
  simp only [hsplit, okOrElse]
  change (do
    let port ← okOrElse (Str.stripPrefix (String.ofList (':' :: Nat.toDigits 10 port.toNat)) ':') _
    return (String.ofList host, ← parsePort port raw)) = _
  rw [hcolon]
  change (do return (String.ofList host, ← parsePort _ raw)) = _
  rw [parsePort, Net.parseU16_toDigits]
  rfl

/-! ## Printed addresses -/

theorem connectAddrOf_plain {host : List Char} (hcolon : ':' ∉ host) (port : UInt16) :
    connectAddrOf (String.ofList host) port
      = String.ofList (host ++ ':' :: Nat.toDigits 10 port.toNat) := by
  have hplain : Str.contains (String.ofList host) ":" = false := by
    rw [Bool.eq_false_iff, Ne, contains_colon_iff]
    exact hcolon
  unfold connectAddrOf
  rw [hplain, if_neg Bool.false_ne_true, toString_port]
  refine String.toList_injective ?_
  simp only [String.toList_append, String.toList_ofList, toString]
  simp

theorem connectAddrOf_bracketed {host : List Char} (hcolon : ':' ∈ host) (port : UInt16) :
    connectAddrOf (String.ofList host) port
      = String.ofList ('[' :: host ++ ']' :: ':' :: Nat.toDigits 10 port.toNat) := by
  unfold connectAddrOf
  rw [if_pos (contains_colon_iff.mpr hcolon), toString_port]
  refine String.toList_injective ?_
  simp only [String.toList_append, String.toList_ofList, toString]
  simp

/-- The characters of a printed address with its port. -/
def addressChars : List Char := '[' :: ']' :: Net.ipv6Chars

theorem toDigits_addressChars (port : UInt16) :
    ∀ c ∈ Nat.toDigits 10 port.toNat, c ∈ addressChars := by
  have hdigits : ∀ d : Fin 10, d.val.digitChar ∈ addressChars := by decide
  intro c hc
  obtain ⟨d, hd, rfl⟩ := Net.mem_toDigits (by decide) hc
  exact hdigits ⟨d, hd⟩

theorem ipText_addressChars (ip : IpAddr) : ∀ c ∈ Net.ipText ip, c ∈ addressChars := by
  intro c hc
  cases ip with
  | v4 octets =>
      have hsub : ∀ d ∈ Net.ipv4Chars, d ∈ addressChars :=
        List.all_iff_forall_prop.mp rfl
      exact hsub c (Net.mem_ipv4Text c hc)
  | v6 octets =>
      exact List.mem_cons_of_mem _ (List.mem_cons_of_mem _ (Net.mem_ipv6Text c hc))

theorem addressChars_plain : ∀ c ∈ addressChars,
    Str.isWhitespace c = false ∧ c ≠ '/' ∧ c ≠ '?' ∧ c ≠ '#' :=
  List.all_iff_forall_prop.mp rfl

/-- The text that `run` puts in the place of the pool address reads back as that address. -/
theorem parsePoolEndpoint_socketAddr (addr : SocketAddr) (sniOverride : Option String) :
    ∃ host, parsePoolEndpoint addr.toText sniOverride = .ok {
      connectAddr := addr.toText
      host := host
      port := addr.port
      tlsServerName := (sniName sniOverride).getD host
      sniOverridden := (sniName sniOverride).isSome } := by
  obtain ⟨ip, port⟩ := addr
  have hip := ipText_addressChars ip
  have hdigits := toDigits_addressChars port
  refine ⟨String.ofList (Net.ipText ip), ?_⟩
  cases ip with
  | v4 octets =>
      have hnot : ∀ c ∈ Net.ipv4Chars, c ≠ '[' ∧ c ≠ ':' :=
        List.all_iff_forall_prop.mp rfl
      have hcolon : ':' ∉ Net.ipv4Text octets.val := fun hmem =>
        (hnot ':' (Net.mem_ipv4Text ':' hmem)).2 rfl
      have hbracket : '[' ∉ Net.ipv4Text octets.val := fun hmem =>
        (hnot '[' (Net.mem_ipv4Text '[' hmem)).1 rfl
      have hne : Net.ipv4Text octets.val ≠ [] := Net.ipv4Text_ne_nil octets.property
      have hchars : ∀ c ∈ Net.ipv4Text octets.val ++ ':' :: Nat.toDigits 10 port.toNat,
          c ∈ addressChars := by
        rw [List.forall_mem_append, List.forall_mem_cons]
        exact ⟨hip, by decide, hdigits⟩
      have hconnect := connectAddrOf_plain hcolon port
      rw [SocketAddr.toText, parsePoolEndpoint_of_parts
        (Str.trimmed_of_forall fun c hc => (addressChars_plain c (hchars c hc)).1)
        (fun c hc => (addressChars_plain c (hchars c hc)).2) (by simp) hne
        (hostAndPort_plain hbracket hcolon hne _), hconnect]
      rfl
  | v6 octets =>
      have hnot : ∀ c ∈ Net.ipv6Chars, c ≠ ']' := List.all_iff_forall_prop.mp rfl
      have hclose : ']' ∉ Net.ipv6Text octets.val := fun hmem =>
        hnot ']' (Net.mem_ipv6Text ']' hmem) rfl
      have hcolon : ':' ∈ Net.ipv6Text octets.val := Net.colon_mem_ipv6Text octets.property
      have hchars :
          ∀ c ∈ '[' :: Net.ipv6Text octets.val ++ ']' :: ':' :: Nat.toDigits 10 port.toNat,
            c ∈ addressChars := by
        rw [List.forall_mem_append, List.forall_mem_cons, List.forall_mem_cons,
          List.forall_mem_cons]
        exact ⟨⟨by decide, hip⟩, by decide, by decide, hdigits⟩
      have hconnect := connectAddrOf_bracketed hcolon port
      rw [SocketAddr.toText, parsePoolEndpoint_of_parts
        (Str.trimmed_of_forall fun c hc => (addressChars_plain c (hchars c hc)).1)
        (fun c hc => (addressChars_plain c (hchars c hc)).2) (by simp)
        (List.ne_nil_of_mem hcolon) (hostAndPort_bracketed hclose _), hconnect]
      rfl

/-! ## The rewriting -/

/-- The host of an address that can be looked up: letters, digits, dots and hyphens. -/
def NameChars (host : String) : Prop := ∀ c ∈ host.toList, c.isAlphanum = true ∨ c = '.' ∨ c = '-'

instance (host : String) : Decidable (NameChars host) :=
  List.decidableBAll _ host.toList

theorem trim_of_nameChars {host : String} (h : NameChars host) : Str.trim host = host := by
  refine Str.trim_of_trimmed (Str.trimmed_of_forall fun c hc => ?_)
  obtain halnum | rfl | rfl := h c hc
  · exact Str.isWhitespace_of_isAlphanum halnum
  · rfl
  · rfl

section

variable {url : String} {endpoint : PoolEndpoint}

/-- What DoH leaves as the override is the name of the pool. -/
theorem sniName_resolvePool {cliSni : Option String} {setting : SniSetting}
    (lookup : String → UInt16 → Option IpAddr)
    (h : parsePoolEndpoint url (resolvePoolSni cliSni setting.val url) = .ok endpoint)
    (htrim : Str.trim endpoint.host = endpoint.host) :
    ∃ offered, (resolvePool true true (dohResolve lookup) url
        (resolvePoolSni cliSni setting.val url)).2 = some offered ∧
      sniName (some offered) = some endpoint.tlsServerName := by
  obtain ⟨-, hne, -, -, hname⟩ := parsePoolEndpoint_eq_ok h
  cases hcase : resolvePoolSni cliSni setting.val url with
  | none =>
      have hport := parsePoolHostPort_of_endpoint h
      refine ⟨endpoint.host, resolvePool_none.mpr ⟨rfl, rfl, endpoint.port, hport⟩, ?_⟩
      rw [hname, hcase, sniName_of_trimmed ⟨htrim, hne⟩]
      rfl
  | some name =>
      refine ⟨name, resolvePool_some _ _ _ _ _, ?_⟩
      have hset : Str.trim name ≠ "" := by
        rw [Ne, trim_resolvePoolSni hcase]
        rintro ⟨-, -, host, hextract, hblank⟩
        rw [extractHostFromPoolUrl_of_endpoint h, Option.some.injEq] at hextract
        rw [← hextract, htrim] at hblank
        exact hne hblank
      obtain ⟨sent, hsent⟩ := Option.ne_none_iff_exists'.mp (sniName_eq_none_iff.not.mpr hset)
      rw [hname, hcase, hsent]
      rfl

theorem addr_resolvePool {sni : Option String} (lookup : String → UInt16 → Option IpAddr)
    (h : parsePoolEndpoint url sni = .ok endpoint) :
    (resolvePool true true (dohResolve lookup) url sni).1
      = ((lookup endpoint.host endpoint.port).map fun ip =>
          SocketAddr.toText ⟨ip, endpoint.port⟩).getD url := by
  simp only [resolvePool, parsePoolHostPort_of_endpoint h, if_true]
  cases hlookup : lookup endpoint.host endpoint.port with
  | none => simp [dohResolve, hlookup]
  | some ip => simp [dohResolve, hlookup]

end

/-- For every setting of SNI, the address found by DoH is dialled under the name and on the
port of the pool; when nothing is found, the pool address itself is. -/
theorem doh_is_transparent (url : String) (cliSni : Option String) (setting : SniSetting)
    (lookup : String → UInt16 → Option IpAddr) (endpoint : PoolEndpoint)
    (h : parsePoolEndpoint url (resolvePoolSni cliSni setting.val url) = .ok endpoint)
    (hhost : NameChars endpoint.host) :
    ∃ resolved, parsePoolEndpoint
        (resolvePool true true (dohResolve lookup) url (resolvePoolSni cliSni setting.val url)).1
        (resolvePool true true (dohResolve lookup) url (resolvePoolSni cliSni setting.val url)).2
          = .ok resolved ∧
      resolved.port = endpoint.port ∧
      resolved.tlsServerName = endpoint.tlsServerName ∧
      resolved.connectAddr = match lookup endpoint.host endpoint.port with
        | some ip => SocketAddr.toText ⟨ip, endpoint.port⟩
        | none => endpoint.connectAddr := by
  obtain ⟨offered, hoffered, hsniName⟩ := sniName_resolvePool lookup h (trim_of_nameChars hhost)
  rw [hoffered, addr_resolvePool lookup h]
  cases lookup endpoint.host endpoint.port with
  | none =>
      refine ⟨{ endpoint with sniOverridden := true }, ?_, rfl, rfl, rfl⟩
      rw [Option.map_none, Option.getD_none, parsePoolEndpoint_override url (resolvePoolSni ..), h,
        hsniName]
      rfl
  | some ip =>
      obtain ⟨host, hparse⟩ := parsePoolEndpoint_socketAddr ⟨ip, endpoint.port⟩ (some offered)
      refine ⟨_, hparse, rfl, ?_, rfl⟩
      simp only [hsniName, Option.getD_some]

def findIpv6 (_ : String) (_ : UInt16) : Option IpAddr :=
  some (.v6 ⟨[0x20, 1, 0xd, 0xb8, 0, 0, 0, 0, 0, 0, 0, 0, 0, 0, 0, 1], rfl⟩)

/-- A pool that is found under an IPv6 address. -/
theorem doh_is_transparent_ipv6 :
    ∃ resolved, parsePoolEndpoint
        (resolvePool true true (dohResolve findIpv6) tlsPoolUrl
          (resolvePoolSni none sniFalse.val tlsPoolUrl)).1
        (resolvePool true true (dohResolve findIpv6) tlsPoolUrl
          (resolvePoolSni none sniFalse.val tlsPoolUrl)).2 = .ok resolved ∧
      resolved.port = 443 ∧ resolved.tlsServerName = "pool.example" ∧
      resolved.connectAddr = "[2001:db8::1]:443" :=
  doh_is_transparent tlsPoolUrl none sniFalse findIpv6
    ⟨"pool.example:443", "pool.example", 443, "pool.example", false⟩ (by decide +kernel) (by decide)

end LiteXmr
