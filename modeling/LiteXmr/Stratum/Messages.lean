/-
LiteXmr.Stratum.Messages — the lines the stratum client writes and how it
reads the pool's (`stratum/client.rs`).

A line is parsed by `serde_json`, and when that fails once more after
RapidJSON has minified it. Both are outside the program, so they are
parameters of `parseJsonLine`.

`handleMsg` is `handle_msg` without its channels: it says what the message
makes the client publish and report (`Handled`).
-/
import LiteXmr.Algorithms
import LiteXmr.Error
import LiteXmr.Job.Job
import LiteXmr.Json.Write
import LiteXmr.Rust.Str

namespace LiteXmr.Stratum

/-! ## Login -/

inductive LoginProfile where
  | lite
  | xmrigCompat
  | minimal
  deriving DecidableEq, Repr

/-- The profile tried after this one. -/
def LoginProfile.next : LoginProfile → Option LoginProfile
  | .lite => some .xmrigCompat
  | .xmrigCompat => some .minimal
  | .minimal => none

/-- The fields of the client a login message is made from. The values of
`algoPerf` are floats and stand as their texts. -/
structure LoginConfig where
  user : String
  pass : String
  userAgent : String
  minerSignature : Option String
  http2 : Bool
  http3 : Bool
  ws : Bool
  algoPerf : List (String × String)
  algoMinTime : Option UInt64

/-- An optional entry of an object. -/
def field? (key : String) : Option Json → List (String × Json)
  | some value => [(key, value)]
  | none => []

def buildLogin (config : LoginConfig) (id : UInt64) (profile : LoginProfile) : Json :=
  let algos := match profile with
    | .lite | .xmrigCompat => Algorithms.supportedAlgos
    | .minimal => []
  let params :=
    [("login", Json.string config.user), ("pass", .string config.pass),
      ("agent", .string config.userAgent), ("coin", .string "monero")]
    ++ field? "algo" (if algos.isEmpty then none else some (.array (algos.map .string)))
    ++ field? "algo-perf"
      (if config.algoPerf.isEmpty then none
        else some (.object (config.algoPerf.map fun (algo, perf) =>
          (algo, .number (.float perf)))))
    ++ field? "algo-min-time"
      ((config.algoMinTime.filter (0 < ·)).map fun seconds => .number (.posInt seconds))
    ++ field? "sig"
      (((config.minerSignature.map Str.trim).filter (· ≠ "")).map .string)
    ++ field? "http2" (if config.http2 then some (.bool true) else none)
    ++ field? "http3" (if config.http3 then some (.bool true) else none)
    ++ field? "ws" (if config.ws then some (.bool true) else none)
  .object
    [("id", .number (.posInt id)), ("jsonrpc", .string "2.0"), ("method", .string "login"),
      ("params", .object params)]

/-- What `build_login` returns: the message as text, and the end of the line. -/
def loginLine (config : LoginConfig) (id : UInt64) (profile : LoginProfile) : String :=
  JsonText.toText (buildLogin config id profile) ++ "\n"

def isLoginRetryable : Error → Bool
  | .stratum msg => Str.contains msg "pool closed during login" || Str.contains msg "login failed"
  | .network msg =>
      Str.contains msg "unexpected EOF" || Str.contains msg "TLS stream closed" ||
        Str.contains msg "handshake failure"
  | .io e =>
      e.kind = .unexpectedEof || e.kind = .connectionReset || e.kind = .connectionAborted
  | .json _ => false

/-! ## Submit -/

/-- What the controller puts on the submit queue. -/
structure Submission where
  jobId : String
  nonce : String
  result : String
  deriving DecidableEq, Repr

def buildSubmit (sessionId : String) (submission : Submission) (id : UInt64) : String :=
  "\x7b\"id\":" ++ toString id.toNat
    ++ ",\"jsonrpc\":\"2.0\",\"method\":\"submit\",\"params\":\x7b\"id\":\"" ++ sessionId
    ++ "\",\"job_id\":\"" ++ submission.jobId ++ "\",\"nonce\":\"" ++ submission.nonce
    ++ "\",\"result\":\"" ++ submission.result ++ "\"\x7d\x7d\n"

/-! ## Reading -/

/-- The outcome of `native_bridge::rapidjson_minify`. -/
inductive Minified where
  | text (minified : String)
  | refused
  /-- The native parser calls itself for every bracket that opens, to any depth. When the line
  is nested too deeply for the stack, the process is gone. -/
  | overflow
  deriving DecidableEq

/-- Why there is no value of a line. -/
inductive ParseFailure where
  /-- The display text of the error of `serde_json`. -/
  | json (text : String)
  /-- The call does not come back. -/
  | overflow
  deriving DecidableEq

def parseJsonLine (parse : String → Except String Json) (minify : String → Minified)
    (line : String) : Except ParseFailure Json :=
  match parse line with
  | .ok value => .ok value
  | .error primary =>
      match minify line with
      | .refused => .error (.json primary)
      | .overflow => .error .overflow
      | .text minified =>
          match parse minified with
          | .ok value => .ok value
          | .error _ => .error (.json primary)

def isNoisyTlsClose (msg : String) : Bool :=
  Str.contains msg "decryption failed or bad record mac" || Str.contains msg "record layer failure"

def networkReadError (e : IoError) : Error :=
  if isNoisyTlsClose e.text then .network "TLS stream closed by pool" else .network e.text

def getJsonError (msg : Json) : Option String :=
  match msg.get "error" with
  | none => none
  | some err =>
      if err.isNull then none
      else
        let fromArray := match err.asArray with
          | some arr => (arr[1]?.bind Json.asStr).or (arr[0]?.bind Json.asStr)
          | none => none
        (fromArray.or ((err.get "message").bind Json.asStr)).or err.asStr

def formatJsonError (err : Json) : String :=
  match err.asArray with
  | some arr => ": ".intercalate (arr.filterMap Json.asStr)
  | none => ((err.get "message").bind Json.asStr).getD "unknown"

inductive StratumEvent where
  | newJob (job : Job)
  | accepted
  | rejected (reason : String)
  | connected
  | disconnected (reason : String)
  deriving DecidableEq

/-- What a message makes the client do. -/
inductive Handled where
  | nothing
  /-- The job is sent on the job channel and reported. -/
  | newJob (job : Job)
  /-- A reply: `Accepted` or `Rejected`. -/
  | reply (event : StratumEvent)

/-- A job with an unsupported algorithm is dropped. -/
def Handled.ofJob : Option Job → Handled
  | some job => if Algorithms.isSupported job.algo then .newJob job else .nothing
  | none => .nothing

def handleMsg (msg : Json) : Handled :=
  match (msg.get "method").bind Json.asStr with
  | some method =>
      if method = "job" then .ofJob ((msg.get "params").bind Job.fromC3poolJob)
      else if method = "mining.notify" then
        .ofJob (((msg.get "params").bind Json.asArray).bind Job.fromNotify)
      else .nothing
  | none =>
      match msg.get "id" with
      | none => .nothing
      | some _ =>
          match msg.get "error" with
          | none | some .null => .reply .accepted
          | some err => .reply (.rejected (formatJsonError err))

/-- The job and the session id of an accepted login reply. -/
def loginResult (msg : Json) : String × Handled :=
  match (msg.get "result").bind Json.asObject with
  | none => ("", .nothing)
  | some result =>
      (((Json.lookup "id" result).bind Json.asStr).getD "",
        .ofJob ((Json.lookup "job" result).bind Job.fromC3poolJob))

end LiteXmr.Stratum
