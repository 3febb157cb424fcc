/-
LiteXmr.Config.SchemeTheorems — white space and the scheme of a pool address.

The transport and the RPC client trim an address before they read it; the four
functions that read its scheme do not. `schemeSeen_iff` says for which addresses
this makes no difference. White space at the end is harmless: no scheme reaches
that far (`startsAny_lower_trim`). White space at the head hides every scheme.
-/
import LiteXmr.Config.Config
import LiteXmr.Pool.AddressTheorems
import LiteXmr.Rust.StrTheorems

namespace LiteXmr

/-! ## Lists of schemes -/

def tlsSchemes : List String :=
  ["stratum+ssl://", "stratum+tls://", "ssl://", "tls://", "https://", "wss://", "http3://",
    "h3://"]

def daemonSchemes : List String := ["daemon+http://", "daemon+https://", "http://", "https://"]

def http3Schemes : List String := ["http3://", "h3://"]

def wsSchemes : List String := ["ws://", "wss://"]

/-- The address begins with one of the schemes, in any case. -/
def startsAny (schemes : List String) (url : String) : Bool :=
  schemes.any fun scheme => Str.startsWith (Str.toAsciiLowercase url) scheme

theorem urlImpliesTls_eq (url : String) : urlImpliesTls url = startsAny tlsSchemes url := by
  simp only [urlImpliesTls, startsAny, tlsSchemes, List.any_cons, List.any_nil, Bool.or_false,
    Bool.or_assoc]

theorem urlImpliesDaemonRpc_eq (url : String) :
    urlImpliesDaemonRpc url = (startsAny daemonSchemes url ||
      (parseHostPortLike url).any fun (_, port) => daemonRpcPorts.contains port) := by
  simp only [urlImpliesDaemonRpc, startsAny, daemonSchemes, List.any_cons, List.any_nil,
    Bool.or_false, Bool.or_assoc]

theorem urlImpliesHttp3_eq (url : String) : urlImpliesHttp3 url = startsAny http3Schemes url := by
  simp only [urlImpliesHttp3, startsAny, http3Schemes, List.any_cons, List.any_nil, Bool.or_false]

theorem urlImpliesWs_eq (url : String) : urlImpliesWs url = startsAny wsSchemes url := by
  simp only [urlImpliesWs, startsAny, wsSchemes, List.any_cons, List.any_nil, Bool.or_false]

/-- Every scheme that means something to the configuration. -/
def knownSchemes : List String := tlsSchemes ++ daemonSchemes ++ wsSchemes

theorem startsAny_append (schemes others : List String) (url : String) :
    startsAny (schemes ++ others) url = (startsAny schemes url || startsAny others url) := by
  rw [startsAny, List.any_append]
  rfl

/-- A scheme is a word, and it ends with the mark that separates it from the authority. -/
def IsScheme (scheme : String) : Prop :=
  Str.Word scheme ∧ Str.contains scheme "://" = true

theorem isScheme_of_known : ∀ scheme ∈ knownSchemes, IsScheme scheme := by
  have hall : ∀ scheme ∈ knownSchemes, Str.Word scheme ∧ Str.contains scheme "://" = true :=
    List.all_iff_forall_prop.mp (by decide +kernel)
  exact hall

section

variable {schemes : List String} {url : String} (hschemes : schemes ⊆ knownSchemes)

include hschemes

theorem startsAny_lower_trim (h : Str.leadingWhitespace url = false) :
    startsAny schemes (Str.trim url) = startsAny schemes url := by
  rw [startsAny, startsAny, Bool.eq_iff_iff, List.any_eq_true, List.any_eq_true]
  refine exists_congr fun scheme => and_congr_right fun hmem => ?_
  rw [Str.startsWith_lower_trim (isScheme_of_known scheme (hschemes hmem)).1 h]

theorem startsAny_of_leading (h : Str.leadingWhitespace url = true) :
    startsAny schemes url = false := by
  rw [startsAny, List.any_eq_false]
  intro scheme hmem
  rw [Str.startsWith_lower_of_leading (isScheme_of_known scheme (hschemes hmem)).1 h]
  exact Bool.false_ne_true

theorem contains_of_startsAny (h : startsAny schemes url = true) :
    Str.contains url "://" = true := by
  obtain ⟨scheme, hmem, hstarts⟩ := List.any_eq_true.mp h
  refine Str.contains_of_lower (List.all_iff_forall_prop.mp rfl) (Str.contains_iff.mpr ?_)
  exact (Str.contains_iff.mp (isScheme_of_known scheme (hschemes hmem)).2).trans
    (Str.startsWith_iff.mp hstarts).isInfix

end

/-! ## What the configuration sees -/

/-- The scheme is seen where the connectors see it. -/
structure SchemeSeen (url : String) : Prop where
  tls : urlImpliesTls url = urlImpliesTls (Str.trim url)
  daemonRpc : urlImpliesDaemonRpc url = urlImpliesDaemonRpc (Str.trim url)
  http3 : urlImpliesHttp3 url = urlImpliesHttp3 (Str.trim url)
  ws : urlImpliesWs url = urlImpliesWs (Str.trim url)
  /-- No address that asks for TLS is connected to in plaintext. -/
  connectsTls : ∀ numCpus args fileCfg config sniOverride endpoint,
    Config.load numCpus args fileCfg = .ok config → config.poolUrl = url →
    parsePoolEndpoint url sniOverride = .ok endpoint → urlImpliesTls (Str.trim url) = true →
    config.poolTls = true

theorem poolTls_of_load {numCpus : Nat} {args : Args} {fileCfg : Option FileConfig}
    {config : Config} (h : Config.load numCpus args fileCfg = .ok config) :
    config.poolTls = (args.tls || ((fileCfg.bind selectedPool).map (·.tls)).getD false
      || urlImpliesTls config.poolUrl) := by
  obtain ⟨poolUrl, -, h⟩ := bind_eq_ok h
  cases h
  rfl

theorem tlsSchemes_known : tlsSchemes ⊆ knownSchemes := by
  rw [knownSchemes, List.append_assoc]
  exact List.subset_append_left _ _

theorem daemonSchemes_known : daemonSchemes ⊆ knownSchemes := by
  rw [knownSchemes, List.append_assoc]
  exact List.Subset.trans (List.subset_append_left _ _) (List.subset_append_right _ _)

theorem wsSchemes_known : wsSchemes ⊆ knownSchemes := List.subset_append_right _ _

theorem http3Schemes_known : http3Schemes ⊆ knownSchemes :=
  fun _ hmem => tlsSchemes_known (List.mem_of_mem_drop (i := 6) hmem)

theorem parseHostPortLike_trim (url : String) :
    parseHostPortLike (Str.trim url) = parseHostPortLike url := by
  unfold parseHostPortLike
  rw [Str.trim_trim]

theorem parseHostPortLike_of_contains {url : String}
    (h : Str.contains (Str.trim url) "://" = true) : parseHostPortLike url = none := by
  unfold parseHostPortLike
  simp only
  rw [if_pos (Or.inr h)]

/-- An address with leading white space and a scheme behind it. -/
def HiddenScheme (url : String) : Prop :=
  Str.leadingWhitespace url = true ∧ startsAny knownSchemes (Str.trim url) = true

theorem not_hiddenScheme_of_seen {url : String} (h : SchemeSeen url) : ¬ HiddenScheme url := by
  rintro ⟨hlead, hscheme⟩
  have htls := h.tls
  have hdaemon := h.daemonRpc
  have hws := h.ws
  rw [urlImpliesTls_eq, urlImpliesTls_eq, startsAny_of_leading tlsSchemes_known hlead] at htls
  rw [urlImpliesWs_eq, urlImpliesWs_eq, startsAny_of_leading wsSchemes_known hlead] at hws
  rw [knownSchemes, startsAny_append, startsAny_append, ← htls, ← hws, Bool.false_or,
    Bool.or_false] at hscheme
  -- what is left is the scheme of a daemon, and with a scheme there is no bare `host:port`
  have hmark := contains_of_startsAny daemonSchemes_known hscheme
  rw [urlImpliesDaemonRpc_eq, urlImpliesDaemonRpc_eq, hscheme,
    startsAny_of_leading daemonSchemes_known hlead, parseHostPortLike_of_contains hmark] at hdaemon
  cases hdaemon

theorem seen_of_not_hiddenScheme {url : String} (h : ¬ HiddenScheme url) : SchemeSeen url := by
  have hsame : ∀ schemes, schemes ⊆ knownSchemes →
      startsAny schemes url = startsAny schemes (Str.trim url) := by
    intro schemes hschemes
    cases hlead : Str.leadingWhitespace url with
    | false => exact (startsAny_lower_trim hschemes hlead).symm
    | true =>
        rw [startsAny_of_leading hschemes hlead]
        refine (Bool.eq_false_iff.mpr fun hstarts => h ⟨hlead, ?_⟩).symm
        obtain ⟨scheme, hmem, hscheme⟩ := List.any_eq_true.mp hstarts
        exact List.any_eq_true.mpr ⟨scheme, hschemes hmem, hscheme⟩
  have htls : urlImpliesTls url = urlImpliesTls (Str.trim url) := by
    rw [urlImpliesTls_eq, urlImpliesTls_eq, hsame _ tlsSchemes_known]
  refine { tls := htls, daemonRpc := ?_, http3 := ?_, ws := ?_, connectsTls := ?_ }
  · rw [urlImpliesDaemonRpc_eq, urlImpliesDaemonRpc_eq, hsame _ daemonSchemes_known,
      parseHostPortLike_trim]
  · rw [urlImpliesHttp3_eq, urlImpliesHttp3_eq, hsame _ http3Schemes_known]
  · rw [urlImpliesWs_eq, urlImpliesWs_eq, hsame _ wsSchemes_known]
  · intro numCpus args fileCfg config sniOverride endpoint hload hurl _ hscheme
    rw [poolTls_of_load hload, hurl, htls, hscheme, Bool.or_true]

/-- White space hides a scheme exactly where it stands before it. -/
theorem schemeSeen_iff (url : String) : SchemeSeen url ↔ ¬ HiddenScheme url :=
  ⟨not_hiddenScheme_of_seen, seen_of_not_hiddenScheme⟩

/-- An address that the transport accepts, asks for TLS and is connected to without. -/
theorem hidden_tls_scheme :
    (∃ endpoint, parsePoolEndpoint " stratum+ssl://pool.example:443" none = .ok endpoint) ∧
      urlImpliesTls (Str.trim " stratum+ssl://pool.example:443") = true ∧
      (∃ config, Config.load 1 { url := some " stratum+ssl://pool.example:443" } none = .ok config ∧
        config.poolTls = false) ∧
      ¬ SchemeSeen " stratum+ssl://pool.example:443" := by
  have hhidden : HiddenScheme " stratum+ssl://pool.example:443" :=
    ⟨by decide +kernel, by decide +kernel⟩
  refine ⟨⟨⟨"pool.example:443", "pool.example", 443, "pool.example", false⟩, by decide +kernel⟩,
    by decide +kernel, ⟨_, rfl, by decide +kernel⟩, fun h => not_hiddenScheme_of_seen h hhidden⟩

end LiteXmr
