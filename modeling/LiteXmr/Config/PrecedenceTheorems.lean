/-
LiteXmr.Config.PrecedenceTheorems — blank settings, from the sources to where they
are used.

A setting is merged by `first_non_empty`, which looks at the text as it stands.
Where it is used, the text is trimmed and a blank one counts as absent. The two
do not compose: a blank value on the command line keeps the value of the file
from taking effect. `takesEffect_iff` says this once, for any use that a blank
value leaves as it is; `settings_take_effect_iff` applies it to the five settings.
The SNI setting is trimmed before it is merged, and has no such condition.
-/
import LiteXmr.Config.SchemeTheorems
import LiteXmr.Daemon.RpcClient
import LiteXmr.Stratum.Messages
import LiteXmr.Stratum.Socks
import LiteXmr.Stratum.TransportTheorems

namespace LiteXmr

open Stratum (Fingerprint PoolCertVerifier LoginConfig LoginProfile buildLogin socksProxy
  connectTcp)

/-! ## Blank values -/

/-- The value, unless nothing is left of it after trimming. -/
def nonBlank (value : Option String) : Option String := value.filter fun s => Str.trim s ≠ ""

/-- The value that should take effect. -/
def firstNonBlank (cli file : Option String) : Option String := (nonBlank cli).or (nonBlank file)

/-- A value that is blank, but not empty. -/
def Blank (value : Option String) : Prop := ∃ s, value = some s ∧ s ≠ "" ∧ Str.trim s = ""

/-- A value of the file stands behind a blank one on the command line. -/
def Shadowed (cli file : Option String) : Prop := Blank cli ∧ nonBlank file ≠ none

/-- The first value that is not empty is blank. -/
def BlankFirst (cli file : Option String) : Prop :=
  Blank cli ∨ (cli.filter (· ≠ "") = none ∧ Blank file)

theorem trim_empty : Str.trim "" = "" := by decide

theorem nonBlank_of_trim {s : String} (h : Str.trim s = "") : nonBlank (some s) = none := by
  rw [nonBlank, Option.filter_some, if_neg (by rw [decide_eq_true_eq]; exact not_not.mpr h)]

theorem nonBlank_of_trim_ne {s : String} (h : Str.trim s ≠ "") : nonBlank (some s) = some s := by
  rw [nonBlank, Option.filter_some, if_pos (decide_eq_true h)]

theorem nonBlank_nonBlank (value : Option String) : nonBlank (nonBlank value) = nonBlank value := by
  rw [nonBlank, nonBlank, Option.filter_filter]
  simp only [Bool.and_self]

/-- A value that is no trap: the two tests agree on it. -/
theorem filter_eq_nonBlank {value : Option String} (h : ¬ Blank value) :
    value.filter (· ≠ "") = nonBlank value := by
  cases value with
  | none => rfl
  | some s =>
      by_cases hs : s = ""
      · rw [hs, nonBlank_of_trim trim_empty]
        rfl
      · have htrim : Str.trim s ≠ "" := fun hblank => h ⟨s, rfl, hs, hblank⟩
        rw [nonBlank_of_trim_ne htrim, Option.filter_some, if_pos (decide_eq_true hs)]

theorem filter_of_blank {value : Option String} (h : Blank value) :
    value.filter (· ≠ "") = value := by
  obtain ⟨s, rfl, hs, -⟩ := h
  rw [Option.filter_some, if_pos (decide_eq_true hs)]

theorem nonBlank_of_blank {value : Option String} (h : Blank value) : nonBlank value = none := by
  obtain ⟨s, rfl, -, htrim⟩ := h
  exact nonBlank_of_trim htrim

theorem firstNonEmpty_of_blank {cli : Option String} (h : Blank cli) (file : Option String) :
    firstNonEmpty cli file = cli := by
  rw [firstNonEmpty, filter_of_blank h]
  obtain ⟨s, rfl, -⟩ := h
  rfl

/-- Past the command line, merging keeps what is not blank. -/
theorem nonBlank_firstNonEmpty {cli : Option String} (h : ¬ Blank cli) (file : Option String) :
    nonBlank (firstNonEmpty cli file) = firstNonBlank cli file := by
  rw [firstNonEmpty, filter_eq_nonBlank h, firstNonBlank]
  cases hcli : nonBlank cli with
  | some s =>
      have hkept := nonBlank_nonBlank cli
      rw [hcli] at hkept
      simp only [hkept, Option.some_or]
  | none =>
      simp only [Option.none_or]
      by_cases hfile : Blank file
      · rw [filter_of_blank hfile]
      · rw [filter_eq_nonBlank hfile, nonBlank_nonBlank]

/-! ## Uses of a setting -/

/-- A use that takes a blank value for no value, and any other value for something else. -/
structure IgnoresBlank {β : Type} (use : Option String → β) : Prop where
  blank : ∀ value, use value = use (nonBlank value)
  ne : ∀ s, Str.trim s ≠ "" → use (some s) ≠ use none

/-- What takes effect is the first value that is not blank, unless the command line shadows
it. -/
theorem takesEffect_iff {β : Type} {use : Option String → β} (h : IgnoresBlank use)
    (cli file : Option String) :
    use (firstNonEmpty cli file) = use (firstNonBlank cli file) ↔ ¬ Shadowed cli file := by
  by_cases hcli : Blank cli
  · have hfirst : use (firstNonEmpty cli file) = use none := by
      rw [firstNonEmpty_of_blank hcli, h.blank, nonBlank_of_blank hcli]
    rw [hfirst, firstNonBlank, nonBlank_of_blank hcli, Option.none_or, Shadowed]
    cases hfile : nonBlank file with
    | none => exact ⟨fun _ hshadowed => hshadowed.2 rfl, fun _ => rfl⟩
    | some t =>
        have ht : Str.trim t ≠ "" := of_decide_eq_true (Option.mem_filter_iff.mp hfile).2
        exact ⟨fun heq => absurd heq.symm (h.ne t ht), fun hnot => absurd ⟨hcli, nofun⟩ hnot⟩
  · rw [h.blank, nonBlank_firstNonEmpty hcli]
    exact ⟨fun _ hshadowed => hcli hshadowed.1, fun _ => rfl⟩

/-- The trimmed value, as it is used. -/
theorem sniName_nonBlank (value : Option String) : sniName (nonBlank value) = sniName value := by
  cases value with
  | none => rfl
  | some s =>
      by_cases hs : Str.trim s = ""
      · rw [nonBlank_of_trim hs, sniName, sniName, Option.map_some, hs]
        rfl
      · rw [nonBlank_of_trim_ne hs]

theorem sniName_of_trim_ne {s : String} (h : Str.trim s ≠ "") :
    sniName (some s) = some (Str.trim s) := by
  rw [sniName, Option.map_some, Option.filter_some, if_pos (decide_eq_true h)]

theorem ignoresBlank_fingerprint : IgnoresBlank Fingerprint.parseOptional where
  blank value := by
    have htrimmed : ((nonBlank value).map Str.trim).filter (· ≠ "")
        = (value.map Str.trim).filter (· ≠ "") := sniName_nonBlank value
    rw [Fingerprint.parseOptional, Fingerprint.parseOptional, htrimmed]
  ne s hs := by
    have htrimmed : ((some s).map Str.trim).filter (· ≠ "") = some (Str.trim s) :=
      sniName_of_trim_ne hs
    rw [Fingerprint.parseOptional, htrimmed]
    simp only
    split
    · intro h
      cases h
    · intro h
      cases h

theorem ignoresBlank_socks5 : IgnoresBlank fun socks5 dial endpoint =>
    connectTcp dial endpoint socks5 where
  blank value := by
    funext dial endpoint
    have hproxy : socksProxy (nonBlank value) = socksProxy value := sniName_nonBlank value
    rw [connectTcp, connectTcp, hproxy]
  ne s hs heq := by
    -- a dialler that says which address it was given
    have hdial := congrFun (congrFun heq Except.error) ⟨"", "", 0, "", false⟩
    have hproxy : connectTcp Except.error ⟨"", "", 0, "", false⟩ (some s)
        = .error (Str.trim s) := by
      have hsome : socksProxy (some s) = some (Str.trim s) := sniName_of_trim_ne hs
      rw [connectTcp, hsome]
      rfl
    rw [hproxy] at hdial
    exact hs (Except.error.inj hdial)

/-- A login message without anything optional but the signature. -/
def bareLogin (minerSignature : Option String) : LoginConfig :=
  { user := "", pass := "", userAgent := "", minerSignature, http2 := false, http3 := false
    ws := false, algoPerf := [], algoMinTime := none }

theorem sig_bareLogin (minerSignature : Option String) :
    ((buildLogin (bareLogin minerSignature) 0 .minimal).get "params").bind (·.get "sig")
      = (sniName minerSignature).map .string := by
  have htrimmed : (minerSignature.map Str.trim).filter (· ≠ "") = sniName minerSignature := rfl
  simp only [buildLogin, bareLogin, htrimmed]
  cases sniName minerSignature with
  | none => rfl
  | some _ => rfl

/-- The login of a client with this signature. -/
def loginWith (minerSignature : Option String) (login : LoginConfig) :
    UInt64 → LoginProfile → Json :=
  buildLogin { login with minerSignature }

theorem loginWith_bareLogin (minerSignature other : Option String) :
    loginWith minerSignature (bareLogin other) = buildLogin (bareLogin minerSignature) := rfl

theorem ignoresBlank_minerSignature : IgnoresBlank loginWith where
  blank value := by
    funext login id profile
    have htrimmed : ((nonBlank value).map Str.trim).filter (· ≠ "")
        = (value.map Str.trim).filter (· ≠ "") := sniName_nonBlank value
    simp only [loginWith, buildLogin, htrimmed]
  ne s hs heq := by
    have hlogin := congrFun (congrFun (congrFun heq (bareLogin none)) 0) LoginProfile.minimal
    have hsig := sig_bareLogin (some s)
    rw [loginWith_bareLogin, loginWith_bareLogin] at hlogin
    rw [hlogin, sig_bareLogin, sniName_of_trim_ne hs] at hsig
    cases hsig

theorem rpcLogin_new (url wallet : String) (rpcLogin : Option String) :
    (DaemonRpcClient.new url wallet rpcLogin).rpcLogin = nonBlank rpcLogin := rfl

theorem ignoresBlank_daemonRpcLogin : IgnoresBlank fun daemonRpcLogin url wallet =>
    DaemonRpcClient.new url wallet daemonRpcLogin where
  blank value := by
    funext url wallet
    change DaemonRpcClient.mk _ _ (nonBlank value)
      = DaemonRpcClient.mk _ _ (nonBlank (nonBlank value))
    rw [nonBlank_nonBlank]
  ne s hs heq := by
    have hlogin := congrArg DaemonRpcClient.rpcLogin (congrFun (congrFun heq "") "")
    rw [rpcLogin_new, rpcLogin_new, nonBlank_of_trim_ne hs] at hlogin
    cases hlogin

/-! ## The SNI setting -/

/-- The setting of the file, in words. -/
theorem sniName_resolvePoolSni (cliSni text : Option String) (poolUrl : String) :
    sniName (resolvePoolSni cliSni (SniSetting.ofText text).val poolUrl)
      = sniName (firstNonBlank cliSni text) := by
  have hname : ∀ s, sniName (some (Str.trim s)) = sniName (some s) := fun s => by
    rw [sniName, sniName, Option.map_some, Option.map_some, Str.trim_trim]
  unfold resolvePoolSni firstNonBlank
  cases hcli : nonBlank cliSni with
  | some s =>
      have hs : cliSni = some s ∧ Str.trim s ≠ "" := by
        obtain ⟨hmem, htrim⟩ := Option.mem_filter_iff.mp hcli
        exact ⟨hmem, of_decide_eq_true htrim⟩
      rw [hs.1, sniName_of_trim_ne hs.2, Option.some_or]
      exact hname s
  | none =>
      rw [← sniName_nonBlank cliSni, hcli, Option.none_or]
      cases text with
      | none => rfl
      | some t =>
          by_cases ht : Str.trim t = ""
          · rw [nonBlank_of_trim ht]
            simp only [SniSetting.ofText, Option.bind_some, if_pos ht]
            rfl
          · rw [nonBlank_of_trim_ne ht]
            simp only [SniSetting.ofText, Option.bind_some, if_neg ht]
            exact hname t

theorem parsePoolEndpoint_congr {sniOverride other : Option String}
    (h : sniName sniOverride = sniName other) (addr : String) :
    parsePoolEndpoint addr sniOverride = parsePoolEndpoint addr other := by
  unfold parsePoolEndpoint
  rw [h]

/-! ## The certificate pin -/

theorem new_eq_unpinned_iff (value : Option String) :
    PoolCertVerifier.new value = .ok { fingerprint := none } ↔ nonBlank value = none := by
  cases hvalue : nonBlank value with
  | none =>
      rw [PoolCertVerifier.new, ignoresBlank_fingerprint.blank, hvalue]
      exact ⟨fun _ => rfl, fun _ => rfl⟩
  | some s =>
      have hs : Str.trim s ≠ "" := of_decide_eq_true (Option.mem_filter_iff.mp hvalue).2
      rw [PoolCertVerifier.new, ignoresBlank_fingerprint.blank, hvalue]
      refine ⟨fun h => absurd ?_ (ignoresBlank_fingerprint.ne s hs),
        fun h => absurd h (Option.some_ne_none s)⟩
      cases hparse : Fingerprint.parseOptional (some s) with
      | error e =>
          rw [hparse] at h
          cases h
      | ok fingerprint =>
          rw [hparse] at h
          cases h
          rfl

theorem unpinned_iff (cli file : Option String) :
    (firstNonEmpty cli file = none ↔
      PoolCertVerifier.new (firstNonEmpty cli file) = .ok { fingerprint := none }) ↔
      ¬ BlankFirst cli file := by
  rw [new_eq_unpinned_iff]
  by_cases hcli : Blank cli
  · rw [firstNonEmpty_of_blank hcli, nonBlank_of_blank hcli]
    obtain ⟨s, rfl, hs⟩ := hcli
    refine ⟨fun h => ?_, fun h => absurd (Or.inl ⟨s, rfl, hs⟩) h⟩
    cases h.mpr rfl
  · rw [BlankFirst, or_iff_right hcli, firstNonEmpty]
    cases hkept : cli.filter (· ≠ "") with
    | some s =>
        rw [filter_eq_nonBlank hcli] at hkept
        have hagain := nonBlank_nonBlank cli
        rw [hkept] at hagain
        simp only [hagain, reduceCtorEq, false_and, not_false_eq_true]
    | none =>
        simp only [true_and]
        by_cases hfile : Blank file
        · rw [filter_of_blank hfile, nonBlank_of_blank hfile]
          obtain ⟨t, rfl, ht⟩ := hfile
          refine ⟨fun h => ?_, fun h => absurd ⟨t, rfl, ht⟩ h⟩
          cases h.mpr rfl
        · rw [filter_eq_nonBlank hfile, nonBlank_nonBlank]
          exact ⟨fun _ => hfile, fun _ => Iff.rfl⟩

/-! ## All settings -/

/-- The first value that is not blank takes effect, and the warning about a missing pin
appears when there is none. -/
structure SettingsTakeEffect (args : Args) (pool : Option PoolConfig) (config : Config) :
    Prop where
  tlsFingerprint : Fingerprint.parseOptional config.tlsFingerprint
    = Fingerprint.parseOptional (firstNonBlank args.tlsFingerprint (pool.bind (·.tlsFingerprint)))
  socks5 : ∀ dial endpoint, connectTcp dial endpoint config.socks5
    = connectTcp dial endpoint (firstNonBlank args.socks5 (pool.bind (·.socks5)))
  sni : ∀ text, pool.bind (·.sni.val) = (SniSetting.ofText text).val →
    ∀ addr, parsePoolEndpoint addr config.poolSni
      = parsePoolEndpoint addr (firstNonBlank args.sni text)
  minerSignature : ∀ login id profile,
    loginWith config.minerSignature login id profile
      = loginWith (firstNonBlank args.minerSignature (pool.bind (·.minerSignature)))
          login id profile
  daemonRpcLogin : ∀ url wallet, DaemonRpcClient.new url wallet config.daemonRpcLogin
    = DaemonRpcClient.new url wallet
        (firstNonBlank args.daemonRpcLogin (pool.bind (·.daemonRpcLogin)))
  pinWarning : config.tlsFingerprint = none ↔
    PoolCertVerifier.new config.tlsFingerprint = .ok { fingerprint := none }

/-- No blank value stands in the way. -/
structure NoBlankInTheWay (args : Args) (pool : Option PoolConfig) : Prop where
  tlsFingerprint : ¬ BlankFirst args.tlsFingerprint (pool.bind (·.tlsFingerprint))
  socks5 : ¬ Shadowed args.socks5 (pool.bind (·.socks5))
  minerSignature : ¬ Shadowed args.minerSignature (pool.bind (·.minerSignature))
  daemonRpcLogin : ¬ Shadowed args.daemonRpcLogin (pool.bind (·.daemonRpcLogin))

theorem settings_take_effect_iff {numCpus : Nat} {args : Args} {fileCfg : Option FileConfig}
    {config : Config} (h : Config.load numCpus args fileCfg = .ok config) :
    SettingsTakeEffect args (fileCfg.bind selectedPool) config ↔
      NoBlankInTheWay args (fileCfg.bind selectedPool) := by
  obtain ⟨poolUrl, -, h⟩ := bind_eq_ok h
  cases h
  refine ⟨fun heffect => ?_, fun hnone => ?_⟩
  · refine { tlsFingerprint := (unpinned_iff _ _).mp heffect.pinWarning, socks5 := ?_,
             minerSignature := ?_, daemonRpcLogin := ?_ }
    · refine (takesEffect_iff ignoresBlank_socks5 _ _).mp ?_
      funext dial endpoint
      exact heffect.socks5 dial endpoint
    · refine (takesEffect_iff ignoresBlank_minerSignature _ _).mp ?_
      funext login id profile
      exact heffect.minerSignature login id profile
    · refine (takesEffect_iff ignoresBlank_daemonRpcLogin _ _).mp ?_
      funext url wallet
      exact heffect.daemonRpcLogin url wallet
  · have hsocks5 := (takesEffect_iff ignoresBlank_socks5 _ _).mpr hnone.socks5
    have hsignature := (takesEffect_iff ignoresBlank_minerSignature _ _).mpr hnone.minerSignature
    have hlogin := (takesEffect_iff ignoresBlank_daemonRpcLogin _ _).mpr hnone.daemonRpcLogin
    have hpin : ¬ Shadowed args.tlsFingerprint
        ((fileCfg.bind selectedPool).bind (·.tlsFingerprint)) := fun hshadowed =>
      hnone.tlsFingerprint (Or.inl hshadowed.1)
    refine { tlsFingerprint := (takesEffect_iff ignoresBlank_fingerprint _ _).mpr hpin,
             socks5 := fun dial endpoint => congrFun (congrFun hsocks5 dial) endpoint,
             sni := fun text htext addr => ?_,
             minerSignature := fun login id profile =>
               congrFun (congrFun (congrFun hsignature login) id) profile,
             daemonRpcLogin := fun url wallet => congrFun (congrFun hlogin url) wallet,
             pinWarning := (unpinned_iff _ _).mpr hnone.tlsFingerprint }
    refine parsePoolEndpoint_congr ?_ addr
    dsimp only
    rw [htext, sniName_resolvePoolSni]

/-- A proxy in the file, and none on the command line. -/
def proxyArgs : Args := { url := some "pool.example:3333" }

def proxyFile : FileConfig := { pool := some { socks5 := some "127.0.0.1:9050" } }

theorem settings_take_effect_proxy :
    ∃ config, Config.load 1 proxyArgs (some proxyFile) = .ok config ∧
      SettingsTakeEffect proxyArgs (selectedPool proxyFile) config := by
  have habsent : ¬ Blank none := fun ⟨_, h, _⟩ => nomatch h
  refine ⟨_, rfl, (settings_take_effect_iff
    (rfl : Config.load 1 proxyArgs (some proxyFile) = .ok _)).mpr ?_⟩
  exact { tlsFingerprint := fun h => h.elim habsent fun hfile => habsent hfile.2
          socks5 := fun h => habsent h.1
          minerSignature := fun h => habsent h.1
          daemonRpcLogin := fun h => habsent h.1 }

/-- A pin in the file, and a blank fingerprint on the command line. -/
def blankPinArgs : Args := { url := some "pool.example:443", tlsFingerprint := some " " }

def pinFile : FileConfig := { pool := some { tlsFingerprint := some Stratum.abcFingerprint } }

/-- The pin is dropped, and nothing is said about it. -/
theorem blank_fingerprint_drops_pin :
    ∃ config, Config.load 1 blankPinArgs (some pinFile) = .ok config ∧
      PoolCertVerifier.new config.tlsFingerprint = .ok { fingerprint := none } ∧
      config.tlsFingerprint ≠ none ∧
      ¬ SettingsTakeEffect blankPinArgs (selectedPool pinFile) config := by
  have hblank : Blank (some " ") := ⟨" ", rfl, by decide, by decide⟩
  have hunpinned := (new_eq_unpinned_iff (some " ")).mpr (nonBlank_of_blank hblank)
  refine ⟨_, rfl, hunpinned, nofun, fun h => ?_⟩
  cases h.pinWarning.mpr hunpinned

end LiteXmr
