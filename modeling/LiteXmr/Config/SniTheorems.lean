/-
LiteXmr.Config.SniTheorems — when the name of the server is sent in the TLS
handshake.

The decision goes through three functions: `resolve_pool_sni` merges the
settings, the controller rewrites the result when it resolves the pool over DoH,
and the endpoint parser looks whether anything is left. `sni_sent_iff` says when
the outcome is the setting of the user. It is not when DoH replaces the host of
the address by an IP address: the host then goes into the SNI override, which is
also how a configured name is kept. And a host of white space is taken for a host
first, and for no name at the end.
-/
import LiteXmr.Config.Config
import LiteXmr.Pool.AddressTheorems
import LiteXmr.Rust.StrTheorems

namespace LiteXmr

/-! ## The setting -/

/-- A name that the deserializer lets through is trimmed and not empty. -/
theorem SniSetting.name_ok {setting : SniSetting} {name : String}
    (h : setting.val = some (.name name)) : Str.trim name = name ∧ name ≠ "" := by
  obtain ⟨sni, display, value, hvalue⟩ := setting
  subst h
  match value, hvalue with
  | some (.string s), hvalue =>
      simp only [deserializePoolSni, Except.ok.injEq] at hvalue
      split at hvalue
      · cases hvalue
      · next hne =>
          cases hvalue
          exact ⟨Str.trim_trim s, hne⟩

/-- The user has asked for SNI: with a name, or for the host of the address. -/
def SniConfigured (cliSni : Option String) (setting : SniSetting) (url : String) : Prop :=
  sniName cliSni ≠ none ∨ (∃ name, setting.val = some (.name name)) ∨
    (setting.val = some .enabled ∧ extractHostFromPoolUrl url ≠ none)

/-- The host of the address is asked for, and it is white space. -/
def BlankHost (cliSni : Option String) (setting : SniSetting) (url : String) : Prop :=
  sniName cliSni = none ∧ setting.val = some .enabled ∧
    ∃ host, extractHostFromPoolUrl url = some host ∧ Str.trim host = ""

theorem trim_sniName {cliSni : Option String} {name : String} (h : sniName cliSni = some name) :
    Str.trim name = name ∧ name ≠ "" := by
  obtain ⟨hmem, hne⟩ := Option.mem_filter_iff.mp h
  obtain ⟨s, -, rfl⟩ := Option.map_eq_some_iff.mp hmem
  exact ⟨Str.trim_trim s, of_decide_eq_true hne⟩

theorem sniName_of_trimmed {name : String} (h : Str.trim name = name ∧ name ≠ "") :
    sniName (some name) = some name := by
  rw [sniName, Option.map_some, h.1, Option.filter_some, if_pos (decide_eq_true h.2)]

theorem sniName_eq_none_iff {name : String} : sniName (some name) = none ↔ Str.trim name = "" := by
  rw [sniName, Option.map_some, Option.filter_eq_none_iff]
  simp only [Option.some.injEq, forall_eq', decide_eq_true_eq, ne_eq, not_not]

section

variable {cliSni : Option String} {setting : SniSetting} {url : String}

theorem resolvePoolSni_eq_none_iff :
    resolvePoolSni cliSni setting.val url = none ↔ ¬ SniConfigured cliSni setting url := by
  unfold resolvePoolSni SniConfigured
  cases hcli : sniName cliSni with
  | some name => simp
  | none =>
      cases hsetting : setting.val with
      | none => simp
      | some sni =>
          cases sni with
          | disabled => simp
          | name name => simp
          | enabled => simp

theorem resolvePoolSni_eq_some (h : SniConfigured cliSni setting url) :
    ∃ name, resolvePoolSni cliSni setting.val url = some name :=
  Option.ne_none_iff_exists'.mp fun hnone => resolvePoolSni_eq_none_iff.mp hnone h

/-- Of the names it makes, only that of a blank host is blank. -/
theorem trim_resolvePoolSni {name : String}
    (h : resolvePoolSni cliSni setting.val url = some name) :
    Str.trim name = "" ↔ BlankHost cliSni setting url := by
  have hnot : ∀ {s : String}, Str.trim s = s ∧ s ≠ "" → Str.trim s ≠ "" := fun hs => by
    rw [hs.1]
    exact hs.2
  unfold resolvePoolSni at h
  unfold BlankHost
  cases hcli : sniName cliSni with
  | some cliName =>
      rw [hcli] at h
      cases h
      simp [hnot (trim_sniName hcli)]
  | none =>
      rw [hcli] at h
      cases hsetting : setting.val with
      | none =>
          rw [hsetting] at h
          cases h
      | some sni =>
          rw [hsetting] at h
          cases sni with
          | disabled => cases h
          | name poolName =>
              cases h
              simp [hnot (SniSetting.name_ok hsetting)]
          | enabled =>
              change extractHostFromPoolUrl url = some name at h
              simp only [h, true_and, Option.some.injEq, exists_eq_left']

end

/-! ## The controller -/

/-- `doh::resolve` for a look-up that finds `lookup host port`: the address carries the port
it was asked for, and is passed on as text. -/
def dohResolve (lookup : String → UInt16 → Option IpAddr) (host : String) (port : UInt16) :
    Option String :=
  (lookup host port).map fun ip => SocketAddr.toText ⟨ip, port⟩

/-- DoH finds a host in the address to look up. -/
def DohHost (doh poolTls : Bool) (url host : String) : Prop :=
  doh = true ∧ poolTls = true ∧ ∃ port, parsePoolHostPort url = some (host, port)

theorem resolvePool_some (doh poolTls : Bool) (resolve : String → UInt16 → Option String)
    (url name : String) : (resolvePool doh poolTls resolve url (some name)).2 = some name := by
  unfold resolvePool
  split
  · split
    · simp only [Option.isNone_some, Bool.false_and, Bool.false_eq_true, if_false]
      split
      · rfl
      · rfl
    · rfl
  · rfl

theorem resolvePool_none {doh poolTls : Bool} {resolve : String → UInt16 → Option String}
    {url name : String} :
    (resolvePool doh poolTls resolve url none).2 = some name ↔ DohHost doh poolTls url name := by
  unfold resolvePool DohHost
  cases doh with
  | false => simp
  | true =>
      cases hparse : parsePoolHostPort url with
      | none => simp
      | some found =>
          obtain ⟨host, port⟩ := found
          cases hresolve : resolve host port with
          | none => cases poolTls <;> simp [hresolve]
          | some addr => cases poolTls <;> simp [hresolve]

theorem sniOverridden_of_endpoint {addr : String} {sniOverride : Option String}
    {endpoint : PoolEndpoint} (h : parsePoolEndpoint addr sniOverride = .ok endpoint) :
    endpoint.sniOverridden = (sniName sniOverride).isSome := by
  rw [parsePoolEndpoint_override addr none sniOverride] at h
  cases hnone : parsePoolEndpoint addr none with
  | error _ =>
      rw [hnone] at h
      cases h
  | ok plain =>
      rw [hnone] at h
      cases h
      rfl

/-! ## What is sent -/

/-- DoH offers the host of the address, which nobody has asked for. -/
def DohOffersHost (doh poolTls : Bool) (cliSni : Option String) (setting : SniSetting)
    (url : String) : Prop :=
  ¬ SniConfigured cliSni setting url ∧ ∃ host, DohHost doh poolTls url host ∧ Str.trim host ≠ ""

/-- SNI is sent exactly when it was configured, unless DoH offers the host of the address or a
host of white space was asked for. -/
theorem sni_sent_iff {doh poolTls : Bool} {cliSni : Option String} {setting : SniSetting}
    {url : String} {lookup : String → UInt16 → Option IpAddr} {endpoint : PoolEndpoint}
    (h : parsePoolEndpoint
      (resolvePool doh poolTls (dohResolve lookup) url (resolvePoolSni cliSni setting.val url)).1
      (resolvePool doh poolTls (dohResolve lookup) url (resolvePoolSni cliSni setting.val url)).2
        = .ok endpoint) :
    (endpoint.sniOverridden = true ↔ SniConfigured cliSni setting url) ↔
      ¬ DohOffersHost doh poolTls cliSni setting url ∧ ¬ BlankHost cliSni setting url := by
  rw [sniOverridden_of_endpoint h]
  by_cases hconf : SniConfigured cliSni setting url
  · -- a configured name goes through the controller as it is
    obtain ⟨name, hname⟩ := resolvePoolSni_eq_some hconf
    have hnot : ¬ DohOffersHost doh poolTls cliSni setting url := fun hoffers => hoffers.1 hconf
    rw [hname, resolvePool_some, Option.isSome_iff_ne_none, Ne, sniName_eq_none_iff,
      trim_resolvePoolSni hname]
    exact ⟨fun hsent => ⟨hnot, hsent.mpr hconf⟩, fun hcond => ⟨fun _ => hconf, fun _ => hcond.2⟩⟩
  · rw [resolvePoolSni_eq_none_iff.mpr hconf]
    have hblank : ¬ BlankHost cliSni setting url := fun ⟨_, henabled, host, hhost, _⟩ =>
      hconf (Or.inr (Or.inr ⟨henabled, by rw [hhost]; exact nofun⟩))
    have hoffers : DohOffersHost doh poolTls cliSni setting url ↔
        (sniName (resolvePool doh poolTls (dohResolve lookup) url none).2).isSome = true := by
      cases hsni : (resolvePool doh poolTls (dohResolve lookup) url none).2 with
      | none =>
          refine ⟨fun ⟨_, host, hhost, _⟩ => ?_, fun hsome => nomatch hsome⟩
          rw [resolvePool_none.mpr hhost] at hsni
          cases hsni
      | some name =>
          have hname := resolvePool_none.mp hsni
          rw [Option.isSome_iff_ne_none, Ne, sniName_eq_none_iff]
          refine ⟨fun ⟨_, host, hhost, hne⟩ => ?_, fun hne => ⟨hconf, name, hname, hne⟩⟩
          rw [resolvePool_none.mpr hhost] at hsni
          cases hsni
          exact hne
    rw [hoffers]
    exact ⟨fun hsent => ⟨fun hsome => hconf (hsent.mp hsome), hblank⟩,
      fun hcond => ⟨fun hsome => absurd hsome hcond.1, fun hsome => absurd hsome hconf⟩⟩

/-- `"sni": false`. -/
def sniFalse : SniSetting := ⟨some .disabled, fun _ => "", some (.bool false), rfl⟩

def tlsPoolUrl : String := "stratum+tls://pool.example:443"

theorem not_sniConfigured_false (url : String) : ¬ SniConfigured none sniFalse url := by
  rintro (hcli | ⟨name, hname⟩ | ⟨henabled, -⟩)
  · exact hcli rfl
  · cases hname
  · cases henabled

def noAddress (_ : String) (_ : UInt16) : Option IpAddr := none

/-- A name that was configured is sent, with the address that was looked up or without. -/
theorem sni_sent_cli :
    ∃ endpoint, parsePoolEndpoint
        (resolvePool true true (dohResolve noAddress) tlsPoolUrl
          (resolvePoolSni (some "proxy.example") sniFalse.val tlsPoolUrl)).1
        (resolvePool true true (dohResolve noAddress) tlsPoolUrl
          (resolvePoolSni (some "proxy.example") sniFalse.val tlsPoolUrl)).2 = .ok endpoint ∧
      (endpoint.sniOverridden = true ↔
        SniConfigured (some "proxy.example") sniFalse tlsPoolUrl) := by
  have hendpoint : parsePoolEndpoint
      (resolvePool true true (dohResolve noAddress) tlsPoolUrl
        (resolvePoolSni (some "proxy.example") sniFalse.val tlsPoolUrl)).1
      (resolvePool true true (dohResolve noAddress) tlsPoolUrl
        (resolvePoolSni (some "proxy.example") sniFalse.val tlsPoolUrl)).2
        = .ok ⟨"pool.example:443", "pool.example", 443, "proxy.example", true⟩ := by
    decide +kernel
  refine ⟨_, hendpoint, (sni_sent_iff hendpoint).mpr ⟨fun hoffers => ?_, fun hblank => ?_⟩⟩
  · exact hoffers.1 (Or.inl (by decide))
  · exact absurd hblank.1 (by decide)

/-- With DoH, SNI is sent although it is switched off. -/
theorem doh_sends_sni :
    parsePoolEndpoint
      (resolvePool true true (dohResolve fun _ _ => some (ipv4New 203 0 113 10)) tlsPoolUrl
        (resolvePoolSni none sniFalse.val tlsPoolUrl)).1
      (resolvePool true true (dohResolve fun _ _ => some (ipv4New 203 0 113 10)) tlsPoolUrl
        (resolvePoolSni none sniFalse.val tlsPoolUrl)).2
        = .ok ⟨"203.0.113.10:443", "203.0.113.10", 443, "pool.example", true⟩ ∧
      ¬ SniConfigured none sniFalse tlsPoolUrl :=
  ⟨by decide +kernel, not_sniConfigured_false tlsPoolUrl⟩

end LiteXmr
