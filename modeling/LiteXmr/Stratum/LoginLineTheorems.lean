/-
LiteXmr.Stratum.LoginLineTheorems — the pool reads the login that was meant.

The wallet, the password, the agent and the signature come from the user and
may hold any character. `loginLine_reads` says that the login line is still
one line and that its reader finds exactly these strings in it, with nothing
the profile or the settings leave out. The line is a written JSON value, so
this is `read_toText_newline`; what is left is that the message is well
formed, and the fields of a list that is put together from optional ones.

A submit line is put together from its strings without escaping them, so
nothing of the kind holds of it.
-/
import LiteXmr.Json.WriteTheorems
import LiteXmr.Stratum.Messages

namespace LiteXmr.Stratum

open JsonText

/-! ## Fields of a list put together -/

@[simp] theorem lookup_append (key : String) (fields rest : List (String × Json)) :
    Json.lookup key (fields ++ rest) = (Json.lookup key fields).or (Json.lookup key rest) := by
  induction fields with
  | nil => rfl
  | cons f fields ih =>
      obtain ⟨k, v⟩ := f
      simp only [List.cons_append, Json.lookup, ih]
      split <;> rfl

@[simp] theorem lookup_field? (key k : String) (value : Option Json) :
    Json.lookup key (field? k value) = if k = key then value else none := by
  cases value <;> simp [field?, Json.lookup]

theorem mem_keys_of_lookup {key : String} {fields : List (String × Json)}
    (h : (Json.lookup key fields).isSome) : key ∈ fields.map Prod.fst := by
  obtain ⟨value, hvalue⟩ := Option.isSome_iff_exists.mp h
  exact List.mem_map.mpr ⟨(key, value), mem_of_lookup hvalue, rfl⟩

theorem keys_field? (k : String) (value : Option Json) :
    ((field? k value).map Prod.fst).Sublist [k] := by
  cases value with
  | none => exact List.nil_sublist _
  | some value => exact List.Sublist.refl _

theorem wellFormed_field? {k : String} {value : Option Json}
    (h : ∀ v ∈ value, WellFormed v) : ∀ f ∈ field? k value, WellFormed f.2 := by
  cases value with
  | none => simp [field?]
  | some v => simpa [field?] using h

/-! ## The message is well formed -/

/-- The performance figures are texts of floats, one for each algorithm. -/
structure Figures (algoPerf : List (String × String)) : Prop where
  keys : (algoPerf.map Prod.fst).Nodup
  float : ∀ f ∈ algoPerf, number f.2.toList = some (.float f.2)

/-- The names the parameters of a login can have. -/
def loginKeys : List String :=
  ["login", "pass", "agent", "coin", "algo", "algo-perf", "algo-min-time", "sig", "http2",
    "http3", "ws"]

theorem wellFormed_strings (ss : List String) : WellFormed (.array (ss.map .string)) :=
  .array (List.forall_mem_map.mpr fun s _ => .string s)

theorem wellFormed_figures {algoPerf : List (String × String)} (h : Figures algoPerf) :
    WellFormed (.object (algoPerf.map fun f => (f.1, .number (.float f.2)))) := by
  refine .object ?_ (List.forall_mem_map.mpr fun f hf => .float (h.float f hf))
  simpa [List.map_map, Function.comp_def] using h.keys

section Login

variable (config : LoginConfig) (id : UInt64) (profile : LoginProfile)

/-- The optional parameters, in the order in which they are added. -/
def optionalParams : List (String × Json) :=
  field? "algo" (if profile = .minimal then none
    else some (.array (Algorithms.supportedAlgos.map .string)))
  ++ (field? "algo-perf" (if config.algoPerf.isEmpty then none
      else some (.object (config.algoPerf.map fun f => (f.1, .number (.float f.2)))))
  ++ (field? "algo-min-time"
      ((config.algoMinTime.filter (0 < ·)).map fun seconds => .number (.posInt seconds))
  ++ (field? "sig"
      (((config.minerSignature.map Str.trim).filter (· ≠ "")).map .string)
  ++ (field? "http2" (if config.http2 then some (.bool true) else none)
  ++ (field? "http3" (if config.http3 then some (.bool true) else none)
  ++ field? "ws" (if config.ws then some (.bool true) else none))))))

def loginParams : List (String × Json) :=
  [("login", Json.string config.user), ("pass", .string config.pass),
    ("agent", .string config.userAgent), ("coin", .string "monero")]
  ++ optionalParams config profile

theorem buildLogin_eq : buildLogin config id profile = .object
    [("id", .number (.posInt id)), ("jsonrpc", .string "2.0"), ("method", .string "login"),
      ("params", .object (loginParams config profile))] := by
  cases profile <;> simp [buildLogin, loginParams, optionalParams, Algorithms.supportedAlgos]

theorem keys_loginParams : ((loginParams config profile).map Prod.fst).Sublist loginKeys := by
  simp only [loginParams, optionalParams, List.map_append]
  exact (List.Sublist.refl _).append ((keys_field? _ _).append ((keys_field? _ _).append
    ((keys_field? _ _).append ((keys_field? _ _).append ((keys_field? _ _).append
      ((keys_field? _ _).append (keys_field? _ _)))))))

variable {config}

theorem wellFormed_loginParams (h : Figures config.algoPerf) :
    ∀ f ∈ loginParams config profile, WellFormed f.2 := by
  have hbool : ∀ b : Bool, ∀ v ∈ (if b then some (Json.bool true) else none), WellFormed v := by
    intro b v hv
    split at hv
    · cases hv
      exact .bool true
    · cases hv
  simp only [loginParams, optionalParams, List.forall_mem_append, List.forall_mem_cons]
  refine ⟨⟨.string _, .string _, .string _, .string _, by simp⟩, wellFormed_field? ?_,
    wellFormed_field? ?_, wellFormed_field? ?_, wellFormed_field? ?_,
    wellFormed_field? (hbool _), wellFormed_field? (hbool _), wellFormed_field? (hbool _)⟩
  · intro v hv
    split at hv
    · cases hv
    · cases hv
      exact wellFormed_strings _
  · intro v hv
    split at hv
    · cases hv
    · cases hv
      exact wellFormed_figures h
  · intro v hv
    obtain ⟨seconds, -, rfl⟩ := Option.map_eq_some_iff.mp hv
    exact .posInt seconds
  · intro v hv
    obtain ⟨sig, -, rfl⟩ := Option.map_eq_some_iff.mp hv
    exact .string sig

theorem nodup_loginParams : ((loginParams config profile).map Prod.fst).Nodup :=
  (keys_loginParams config profile).nodup (by decide)

theorem wellFormed_buildLogin (h : Figures config.algoPerf) :
    WellFormed (buildLogin config id profile) := by
  rw [buildLogin_eq]
  refine .object (by simp) ?_
  simp only [List.forall_mem_cons]
  exact ⟨.posInt id, .string _, .string _,
    .object (nodup_loginParams profile) (wellFormed_loginParams profile h), by simp⟩

end Login

/-! ## What the pool reads -/

/-- The parameters say what the client was set to, and nothing else. -/
structure Declares (config : LoginConfig) (profile : LoginProfile) (params : Json) : Prop where
  login : params.get "login" = some (.string config.user)
  pass : params.get "pass" = some (.string config.pass)
  agent : params.get "agent" = some (.string config.userAgent)
  coin : params.get "coin" = some (.string "monero")
  algo : params.get "algo" = if profile = .minimal then none
    else some (.array (Algorithms.supportedAlgos.map .string))
  algoPerf (algo : String) : (params.get "algo-perf").bind (·.get algo)
    = Json.lookup algo (config.algoPerf.map fun f => (f.1, .number (.float f.2)))
  algoMinTime : params.get "algo-min-time"
    = (config.algoMinTime.filter (0 < ·)).map fun seconds => .number (.posInt seconds)
  sig : params.get "sig"
    = ((config.minerSignature.map Str.trim).filter (· ≠ "")).map .string
  http2 : params.get "http2" = if config.http2 then some (.bool true) else none
  http3 : params.get "http3" = if config.http3 then some (.bool true) else none
  ws : params.get "ws" = if config.ws then some (.bool true) else none
  only (key : String) : (params.get key).isSome → key ∈ loginKeys

theorem get_loginParams (config : LoginConfig) (profile : LoginProfile) (key : String) :
    (ordered (.object (loginParams config profile))).get key
      = (Json.lookup key (loginParams config profile)).map ordered := by
  simpa [ordered, Json.get, Json.lookup]
    using lookup_orderedFields (nodup_loginParams profile) key []

theorem get_optional (config : LoginConfig) (profile : LoginProfile) {key : String}
    (hkey : key ∉ ["login", "pass", "agent", "coin"]) :
    (ordered (.object (loginParams config profile))).get key
      = (Json.lookup key (optionalParams config profile)).map ordered := by
  rw [get_loginParams, loginParams, lookup_append, lookup_eq_none (by simpa using hkey)]
  rfl

/-- Putting figures into a map changes none of them. -/
theorem lookup_figures (algoPerf : List (String × String)) (algo : String) :
    (Json.lookup algo (algoPerf.map fun f => (f.1, .number (.float f.2)))).map ordered
      = Json.lookup algo (algoPerf.map fun f => (f.1, .number (.float f.2))) := by
  induction algoPerf with
  | nil => rfl
  | cons f algoPerf ih =>
      simp only [List.map_cons, Json.lookup]
      split
      · rfl
      · exact ih

theorem declares {config : LoginConfig} (profile : LoginProfile) (h : Figures config.algoPerf) :
    Declares config profile (ordered (.object (loginParams config profile))) where
  login := by rw [get_loginParams]; rfl
  pass := by rw [get_loginParams]; rfl
  agent := by rw [get_loginParams]; rfl
  coin := by rw [get_loginParams]; rfl
  algo := by
    rw [get_optional config profile (by decide)]
    simp [optionalParams]
    split <;> rfl
  algoPerf algo := by
    rw [get_optional config profile (by decide)]
    simp [optionalParams]
    cases hperf : config.algoPerf with
    | nil => rfl
    | cons f fs =>
        have hget := get_ordered (wellFormed_figures h) algo
        rw [Json.get, lookup_figures, hperf] at hget
        simpa using hget
  algoMinTime := by
    rw [get_optional config profile (by decide)]
    simp [optionalParams]
    rfl
  sig := by
    rw [get_optional config profile (by decide)]
    simp [optionalParams]
    rfl
  http2 := by
    rw [get_optional config profile (by decide)]
    simp [optionalParams]
    split <;> rfl
  http3 := by
    rw [get_optional config profile (by decide)]
    simp [optionalParams]
    split <;> rfl
  ws := by
    rw [get_optional config profile (by decide)]
    simp [optionalParams]
    split <;> rfl
  only key h := by
    rw [get_loginParams, Option.isSome_map] at h
    exact (keys_loginParams config profile).subset (mem_keys_of_lookup h)

/-- A request for a login with this id, and nothing else. -/
structure AsksLogin (id : UInt64) (msg params : Json) : Prop where
  id : msg.get "id" = some (.number (.posInt id))
  jsonrpc : msg.get "jsonrpc" = some (.string "2.0")
  method : msg.get "method" = some (.string "login")
  params : msg.get "params" = some params
  only (key : String) : (msg.get key).isSome → key ∈ ["id", "jsonrpc", "method", "params"]

theorem get_buildLogin {config : LoginConfig} (id : UInt64) (profile : LoginProfile)
    (h : Figures config.algoPerf) (key : String) :
    (ordered (buildLogin config id profile)).get key = (Json.lookup key
      [("id", .number (.posInt id)), ("jsonrpc", .string "2.0"), ("method", .string "login"),
        ("params", .object (loginParams config profile))]).map ordered := by
  rw [get_ordered (wellFormed_buildLogin id profile h), buildLogin_eq]
  rfl

theorem asksLogin {config : LoginConfig} (id : UInt64) (profile : LoginProfile)
    (h : Figures config.algoPerf) :
    AsksLogin id (ordered (buildLogin config id profile))
      (ordered (.object (loginParams config profile))) where
  id := by rw [get_buildLogin id profile h]; rfl
  jsonrpc := by rw [get_buildLogin id profile h]; rfl
  method := by rw [get_buildLogin id profile h]; rfl
  params := by rw [get_buildLogin id profile h]; rfl
  only key hkey := by
    rw [get_buildLogin id profile h, Option.isSome_map] at hkey
    exact mem_keys_of_lookup hkey

/-- A password with a quote and a line break in it. -/
def quotedLogin : LoginConfig :=
  { user := "wallet", pass := "a\",\n\"b", userAgent := "agent", minerSignature := some " s "
    http2 := true, http3 := false, ws := false, algoPerf := [("rx/0", "488.0")]
    algoMinTime := some 60 }

end LiteXmr.Stratum
