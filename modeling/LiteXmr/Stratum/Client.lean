/-
LiteXmr.Stratum.Client — `StratumClient::run` as a step function.

The client is one task; a step is what it does between two awaits. What an
await gives (the outcome of a connect, a line, a submission from the queue,
room for an event) is the input, so the environment chooses it. The events
of a step wait in `outbox`: `event_tx.send(..).await` blocks, and until the
last of them is taken nothing else of the client happens. Beside the client
run `stop`, which anybody may call, and the task that turns a cleared
`running` flag into the shutdown signal (`watch`).

The functions `run`, `run_session` and `run_session_with_profile` nest; their
program counters are one `Phase`, and `fail` is the way an error takes
through the three of them.
-/
import LiteXmr.Lib.Lts
import LiteXmr.Stratum.Messages

namespace LiteXmr.Stratum

/-! ## State -/

inductive Phase where
  /-- `while self.running.load(..)` in `run`. -/
  | loopHead
  | connecting (profile : LoginProfile)
  | sendingLogin (profile : LoginProfile) (loginId : UInt64)
  | awaitingReply (profile : LoginProfile) (loginId : UInt64)
  /-- The `select!` of `mining_loop`. -/
  | mining (profile : LoginProfile) (sessionId : String)
  /-- A submission of `mining_loop` is being written. -/
  | writing (profile : LoginProfile) (sessionId : String)
  | keepalive (profile : LoginProfile)
  /-- The sleep before the next session. -/
  | backoff
  | returned
  /-- The task has panicked. -/
  | panicked
  /-- The process is gone. -/
  | aborted
  deriving DecidableEq

structure Client where
  running : Bool
  /-- The value of the shutdown channel. -/
  shutdown : Bool
  requestId : UInt64
  outbox : List StratumEvent
  phase : Phase

/-- `run`, after it has set the running flag. -/
def Client.start : Client :=
  { running := true, shutdown := false, requestId := 1, outbox := [], phase := .loopHead }

/-- `run` has returned, or its task has panicked, or there is no process any more:
its ends of the channels are dropped. -/
def Client.LeftLoop (c : Client) : Prop :=
  c.phase = .returned ∨ c.phase = .panicked ∨ c.phase = .aborted

instance (c : Client) : Decidable c.LeftLoop := inferInstanceAs (Decidable (_ ∨ _))

structure ClientConfig where
  /-- `serde_json::from_str`, with the display text of its error. -/
  parse : String → Except String Json
  /-- `native_bridge::rapidjson_minify`. -/
  minify : String → Minified
  /-- The log level lets `warn!` through; its arguments are evaluated only then. -/
  warnEnabled : Bool
  keepalive : Bool
  login : LoginConfig

def ClientConfig.parseLine (config : ClientConfig) (line : String) :
    Except ParseFailure Json :=
  parseJsonLine config.parse config.minify line

/-! ## Inputs and observations -/

/-- The outcome of `lines.next_line()`. -/
inductive ReadResult where
  | line (text : String)
  | eof
  | error (e : IoError)

inductive ClientInput where
  /-- Evaluate the condition of the loop of `run`. -/
  | check
  | connect (outcome : Except String Unit)
  | loginWritten (outcome : Except IoError Unit)
  | read (result : ReadResult)
  | shutdownChanged
  | recvSubmit (submission : Submission)
  | submitWritten (outcome : Except String Unit)
  /-- The event channel takes the next event. -/
  | sendEvent
  /-- The sleep is over. -/
  | wake
  | stop
  | watch

inductive ClientObs where
  /-- `run_session_with_profile` is called. -/
  | attempt (profile : LoginProfile)
  /-- The transport of a session is open. -/
  | opened (profile : LoginProfile)
  | login (id : UInt64) (msg : Json)
  | loginReply (msg : Json)
  /-- A message goes through `handle_msg`. -/
  | message (msg : Json)
  | published (job : Job)
  | emitted (event : StratumEvent)
  | submit (sessionId : String) (id : UInt64) (submission : Submission) (line : String)
  | returned

/-! ## Steps -/

def Handled.events : Handled → List StratumEvent
  | .nothing => []
  | .newJob job => [.newJob job]
  | .reply event => [event]

def Handled.published : Handled → List ClientObs
  | .newJob job => [.published job]
  | _ => []

namespace Client

/-- An error of `run_session_with_profile`: `run_session` tries the next
profile, or `run` reports the error and sleeps. -/
def fail (c : Client) (profile : LoginProfile) (e : Error) : Client × List ClientObs :=
  match profile.next with
  | some next =>
      if isLoginRetryable e then ({ c with phase := .connecting next }, [.attempt next])
      else ({ c with phase := .backoff, outbox := [.disconnected e.toString] }, [])
  | none => ({ c with phase := .backoff, outbox := [.disconnected e.toString] }, [])

/-- `run` returns. -/
def finish (c : Client) : Client × List ClientObs :=
  ({ c with running := false, phase := .returned }, [.returned])

/-- The stack overflows in the native parser. -/
def abort (c : Client) : Client × List ClientObs := ({ c with phase := .aborted }, [])

/-- `handle_msg` with its sends. -/
def message (c : Client) (msg : Json) : Client × List ClientObs :=
  ({ c with outbox := (handleMsg msg).events }, .message msg :: (handleMsg msg).published)

/-- The login reply: publish its job, report it and the login, go on to the
session's loop. -/
def loggedIn (c : Client) (config : ClientConfig) (profile : LoginProfile) (msg : Json) :
    Client × List ClientObs :=
  let (sessionId, handled) := loginResult msg
  ({ c with
      outbox := handled.events ++ [.connected]
      phase := if config.keepalive then .keepalive profile else .mining profile sessionId },
    .loginReply msg :: handled.published)

/-- `&line[..line.len().min(120)]` cuts a character. -/
def cutsCharacter (line : String) : Bool :=
  !Str.isCharBoundary line (min (Str.len line) 120)

/-- A line in the login loop. -/
def loginLine (c : Client) (config : ClientConfig) (profile : LoginProfile)
    (loginId : UInt64) (line : String) : Client × List ClientObs :=
  match config.parseLine line with
  | .error (.json text) => c.fail profile (.json text)
  | .error .overflow => c.abort
  | .ok msg =>
      if (msg.get "id").bind Json.asU64 = some loginId then
        match getJsonError msg with
        | some e => c.fail profile (.stratum ("login failed: " ++ e))
        | none => c.loggedIn config profile msg
      else c.message msg

/-- A line in `mining_loop`. -/
def miningLine (c : Client) (config : ClientConfig) (line : String) :
    Client × List ClientObs :=
  let line := Str.trim line
  if line = "" then (c, [])
  else
    match config.parseLine line with
    | .error (.json _) =>
        if config.warnEnabled ∧ cutsCharacter line then ({ c with phase := .panicked }, [])
        else (c, [])
    | .error .overflow => c.abort
    | .ok msg => c.message msg

/-- A line in `keepalive_loop`: a message is logged. -/
def keepaliveLine (c : Client) (config : ClientConfig) (line : String) :
    Client × List ClientObs :=
  match config.parseLine (Str.trim line) with
  | .error .overflow => c.abort
  | _ => (c, [])

/-- What the task itself does when no event is waiting. -/
def act (c : Client) (config : ClientConfig) :
    Phase → ClientInput → Option (Client × List ClientObs)
  | .loopHead, .check =>
      if c.running then some ({ c with phase := .connecting .lite }, [.attempt .lite])
      else some c.finish
  | .connecting profile, .connect (.ok ()) =>
      some ({ c with
              phase := .sendingLogin profile c.requestId, requestId := c.requestId + 1 },
        [.opened profile, .login c.requestId (buildLogin config.login c.requestId profile)])
  | .connecting profile, .connect (.error text) => some (c.fail profile (.network text))
  | .sendingLogin profile loginId, .loginWritten (.ok ()) =>
      some ({ c with phase := .awaitingReply profile loginId }, [])
  | .sendingLogin profile _, .loginWritten (.error e) => some (c.fail profile (.io e))
  | .awaitingReply profile loginId, .read (.line line) =>
      some (c.loginLine config profile loginId line)
  | .awaitingReply profile _, .read .eof =>
      some (c.fail profile (.stratum "pool closed during login"))
  | .awaitingReply profile _, .read (.error e) => some (c.fail profile (.io e))
  | .mining _ _, .read (.line line) => some (c.miningLine config line)
  | .mining _ _, .read .eof => some c.finish
  | .mining profile _, .read (.error e) => some (c.fail profile (networkReadError e))
  | .mining _ _, .shutdownChanged => if c.shutdown then some c.finish else none
  | .mining profile sessionId, .recvSubmit submission =>
      some ({ c with
              phase := .writing profile sessionId, requestId := c.requestId + 1 },
        [.submit sessionId c.requestId submission
          (buildSubmit sessionId submission c.requestId)])
  | .writing profile sessionId, .submitWritten (.ok ()) =>
      some ({ c with phase := .mining profile sessionId }, [])
  | .writing profile _, .submitWritten (.error text) =>
      some (c.fail profile (.network text))
  | .keepalive _, .read (.line line) => some (c.keepaliveLine config line)
  | .keepalive _, .read .eof => some c.finish
  | .keepalive profile, .read (.error e) => some (c.fail profile (networkReadError e))
  | .keepalive _, .shutdownChanged => if c.shutdown then some c.finish else none
  | .backoff, .wake => some ({ c with phase := .loopHead }, [])
  | _, _ => none

end Client

/-- Without a process nothing happens; its events are sent before the line is read. -/
def clientStep (config : ClientConfig) : Lts.Step Client ClientInput ClientObs
  | c, .stop => if c.phase = .aborted then none else some ({ c with running := false }, [])
  | c, .watch =>
      if c.running ∨ c.phase = .aborted then none else some ({ c with shutdown := true }, [])
  | c, .sendEvent =>
      match c.outbox with
      | [] => none
      | event :: rest => some ({ c with outbox := rest }, [.emitted event])
  | c, input => if c.outbox = [] then c.act config c.phase input else none

end LiteXmr.Stratum
