/-
LiteXmr.Pool.AddressTheorems — the readers of a pool address agree.

`hostAndPort_eq_ok` says what an authority that the transport accepts looks like:
two forms, each with its own checks. The readers of the controller and of the
configuration are weaker in both forms, so they find the same host and port
(`parsePoolHostPort_of_endpoint`, `extractHostFromPoolUrl_of_endpoint`).

`pool_address_readers_agree` adds what it is for: the host that DoH looks up and
the name that is offered for the server are those of the connection.
-/
import LiteXmr.Pool.Address

namespace LiteXmr

/-! ## The transport -/

theorem eq_some_of_okOrElse {α : Type} {value : Option α} {error : String} {a : α}
    (h : okOrElse value error = .ok a) : value = some a := by
  cases value with
  | none => cases h
  | some _ =>
      cases h
      rfl

theorem bind_eq_ok {α β : Type} {x : Except String α} {f : α → Except String β} {b : β}
    (h : x >>= f = .ok b) : ∃ a, x = .ok a ∧ f a = .ok b := by
  cases x with
  | error _ => cases h
  | ok a => exact ⟨a, rfl, h⟩

/-- The forms of an authority that the transport reads. -/
theorem hostAndPort_eq_ok {authority raw host : String} {port : UInt16}
    (h : hostAndPort authority raw = .ok (host, port)) :
    (∃ stripped rest digits, Str.stripPrefix authority '[' = some stripped ∧
        Str.splitAtFirst stripped (· == ']') = some (host, rest) ∧
        Str.stripPrefix rest ':' = some digits ∧ Str.parseU16 digits = some port) ∨
      (Str.stripPrefix authority '[' = none ∧ ∃ digits,
        Str.rsplitOnce authority ':' = some (host, digits) ∧ Str.contains host ":" = false ∧
        Str.parseU16 digits = some port) := by
  unfold hostAndPort at h
  cases hstrip : Str.stripPrefix authority '[' with
  | some stripped =>
      simp only [hstrip] at h
      obtain ⟨⟨host', rest⟩, hsplit, h⟩ := bind_eq_ok h
      obtain ⟨digits, hdigits, h⟩ := bind_eq_ok h
      obtain ⟨port', hport, h⟩ := bind_eq_ok h
      cases h
      exact Or.inl ⟨stripped, rest, digits, rfl, eq_some_of_okOrElse hsplit,
        eq_some_of_okOrElse hdigits, eq_some_of_okOrElse hport⟩
  | none =>
      simp only [hstrip] at h
      obtain ⟨⟨host', digits⟩, hsplit, h⟩ := bind_eq_ok h
      simp only at h
      split at h
      · cases h
      · rename_i hcolon
        obtain ⟨port', hport, h⟩ := bind_eq_ok h
        cases h
        exact Or.inr ⟨rfl, digits, eq_some_of_okOrElse hsplit, Bool.eq_false_iff.mpr hcolon,
          eq_some_of_okOrElse hport⟩

/-- An accepted address is one whose authority has a host and a port; everything else of
the endpoint follows from these two and the override. -/
theorem parsePoolEndpoint_eq_ok {addr : String} {sniOverride : Option String}
    {endpoint : PoolEndpoint} (h : parsePoolEndpoint addr sniOverride = .ok endpoint) :
    Str.trim addr ≠ "" ∧ endpoint.host ≠ "" ∧
      hostAndPort (authorityOf (Str.trim addr)) (Str.trim addr)
        = .ok (endpoint.host, endpoint.port) ∧
      endpoint.connectAddr = connectAddrOf endpoint.host endpoint.port ∧
      endpoint.tlsServerName = (sniName sniOverride).getD endpoint.host := by
  unfold parsePoolEndpoint at h
  simp only at h
  split at h
  · cases h
  rename_i hraw
  split at h
  · cases h
  obtain ⟨⟨host, port⟩, hauthority, h⟩ := bind_eq_ok h
  simp only at h
  split at h
  · cases h
  · rename_i hhost
    cases h
    exact ⟨hraw, hhost, hauthority, rfl, rfl⟩

/-- The override decides the name and nothing else. -/
theorem parsePoolEndpoint_override (addr : String) (sniOverride other : Option String) :
    parsePoolEndpoint addr other = (parsePoolEndpoint addr sniOverride).map fun endpoint =>
      { endpoint with
        tlsServerName := (sniName other).getD endpoint.host
        sniOverridden := (sniName other).isSome } := by
  unfold parsePoolEndpoint
  simp only
  split
  · rfl
  split
  · rfl
  cases hostAndPort (authorityOf (Str.trim addr)) (Str.trim addr) with
  | error _ => rfl
  | ok found =>
      change (if found.1 = "" then _ else _) = Except.map _ (if found.1 = "" then _ else _)
      split
      · rfl
      · rfl

/-- The host as the override, the way the configuration and DoH pass it on: the name is
the host, for a host without white space around it. -/
theorem tlsServerName_of_host {addr : String} {sniOverride : Option String}
    {endpoint : PoolEndpoint} (h : parsePoolEndpoint addr sniOverride = .ok endpoint)
    (htrim : Str.trim endpoint.host = endpoint.host) :
    ∃ offered, parsePoolEndpoint addr (some endpoint.host) = .ok offered ∧
      offered.connectAddr = endpoint.connectAddr ∧ offered.tlsServerName = endpoint.host := by
  obtain ⟨_, hhost, _⟩ := parsePoolEndpoint_eq_ok h
  have hname : sniName (some endpoint.host) = some endpoint.host := by
    rw [sniName, Option.map_some, htrim, Option.filter_some, if_pos (decide_eq_true hhost)]
  rw [parsePoolEndpoint_override addr sniOverride, h]
  refine ⟨_, rfl, rfl, ?_⟩
  rw [hname]
  rfl

/-! ## The other readers -/

theorem parsePoolHostPort_of_endpoint {url : String} {sniOverride : Option String}
    {endpoint : PoolEndpoint} (h : parsePoolEndpoint url sniOverride = .ok endpoint) :
    parsePoolHostPort url = some (endpoint.host, endpoint.port) := by
  obtain ⟨hraw, hhost, hauthority, _, _⟩ := parsePoolEndpoint_eq_ok h
  unfold parsePoolHostPort
  simp only [if_neg hraw]
  obtain ⟨stripped, rest, digits, hstrip, hsplit, hdigits, hport⟩ |
    ⟨hstrip, digits, hsplit, hcolon, hport⟩ := hostAndPort_eq_ok hauthority
  · simp only [hstrip, hsplit, hdigits, hport, Option.bind_eq_bind, Option.bind_some,
      Option.pure_def]
  · have hvalid : ¬ (endpoint.host = "" ∨ Str.contains endpoint.host ":" = true) := by
      rw [hcolon]
      exact fun hor => hor.elim hhost Bool.false_ne_true
    simp only [hstrip, hsplit, hport, if_neg hvalid, Option.bind_eq_bind, Option.bind_some,
      Option.pure_def]

theorem extractHostFromPoolUrl_of_endpoint {url : String} {sniOverride : Option String}
    {endpoint : PoolEndpoint} (h : parsePoolEndpoint url sniOverride = .ok endpoint) :
    extractHostFromPoolUrl url = some endpoint.host := by
  obtain ⟨hraw, hhost, hauthority, _, _⟩ := parsePoolEndpoint_eq_ok h
  unfold extractHostFromPoolUrl
  simp only [if_neg hraw]
  obtain ⟨stripped, rest, digits, hstrip, hsplit, _, _⟩ |
    ⟨hstrip, digits, hsplit, hcolon, _⟩ := hostAndPort_eq_ok hauthority
  · simp only [hstrip, hsplit, Option.bind_eq_bind, Option.bind_some, if_pos hhost]
  · have hvalid : ¬ (endpoint.host = "" ∨ Str.contains endpoint.host ":" = true) := by
      rw [hcolon]
      exact fun hor => hor.elim hhost Bool.false_ne_true
    simp only [hstrip, hsplit, Option.bind_eq_bind, Option.bind_some, if_neg hvalid]

/-- All readers find the host and the port that the transport connects to. DoH looks
up that host, and without an override of its own the name offered is that host. -/
theorem pool_address_readers_agree (url : String) (sniOverride : Option String)
    (endpoint : PoolEndpoint) (h : parsePoolEndpoint url sniOverride = .ok endpoint) :
    parsePoolHostPort url = some (endpoint.host, endpoint.port) ∧
      extractHostFromPoolUrl url = some endpoint.host ∧
      endpoint.connectAddr = connectAddrOf endpoint.host endpoint.port ∧
      (sniName sniOverride = none → endpoint.tlsServerName = endpoint.host) ∧
      resolvePoolSni none (some .enabled) url = some endpoint.host ∧
      ∀ resolve, resolvePool true true resolve url none
        = ((resolve endpoint.host endpoint.port).getD url, some endpoint.host) := by
  obtain ⟨_, _, _, hconnect, hname⟩ := parsePoolEndpoint_eq_ok h
  have hport := parsePoolHostPort_of_endpoint h
  have hhost := extractHostFromPoolUrl_of_endpoint h
  refine ⟨hport, hhost, hconnect, fun hnone => ?_, hhost, fun resolve => ?_⟩
  · rw [hname, hnone]
    rfl
  · simp only [resolvePool, hport, Option.isNone_none, Bool.and_self, if_true]
    cases resolve endpoint.host endpoint.port with
    | none => rfl
    | some _ => rfl

/-- An address with scheme and path. -/
theorem pool_address_readers_agree_path :
    parsePoolHostPort "stratum+tls://pool.example:443/path" = some ("pool.example", 443) ∧
      extractHostFromPoolUrl "stratum+tls://pool.example:443/path" = some "pool.example" := by
  obtain ⟨hport, hhost, _⟩ := pool_address_readers_agree "stratum+tls://pool.example:443/path" none
    ⟨"pool.example:443", "pool.example", 443, "pool.example", false⟩ (by decide)
  exact ⟨hport, hhost⟩

end LiteXmr
