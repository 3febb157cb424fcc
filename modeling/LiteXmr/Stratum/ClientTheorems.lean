/-
LiteXmr.Stratum.ClientTheorems — the reconnect loop of the stratum client,
over every run against an arbitrary pool.

`ClientMoves` lists what a step can be, with the errors that end an attempt
(`Fails`) and the lines a session goes on without (`Skips`).

* `run_keeps_reconnecting_iff` — a run in which nobody calls `stop` has not
  left the reconnect loop exactly when no step of it ended a logged-in
  session the wrong way (`LeavesLoop`): the end of the stream, which
  `mining_loop` and `keepalive_loop` take for a normal return, an
  unparseable line that the warning about it cuts inside a character, or a line
  that is nested too deeply for the native parser. From between two sessions every
  way on leads to the next attempt.
-/
import LiteXmr.Stratum.Client

namespace LiteXmr.Stratum

open Lts

/-! ## What a step can be -/

/-- The profile of the attempt the client is in. -/
def Phase.profile : Phase → Option LoginProfile
  | .connecting p | .sendingLogin p _ | .awaitingReply p _ => some p
  | .mining p _ | .writing p _ | .keepalive p => some p
  | .loopHead | .backoff | .returned | .panicked | .aborted => none

/-- The client reads in the loop of a logged-in session. -/
def Phase.inSession : Phase → Bool
  | .mining _ _ | .keepalive _ => true
  | _ => false

/-- Its task has panicked, or the process is gone. -/
def Phase.crashed : Phase → Bool
  | .panicked | .aborted => true
  | _ => false

/-- The warning about an unparseable line cuts it inside a character. -/
structure Panics (config : ClientConfig) (c : Client) (line : String) : Prop where
  mining : ∃ p sid, c.phase = .mining p sid
  warns : config.warnEnabled = true
  cuts : Client.cutsCharacter (Str.trim line) = true
  refused : ∃ e, config.parseLine (Str.trim line) = .error (.json e)

/-- The native parser is called on the line and uses up the stack. -/
inductive Overflows (config : ClientConfig) (c : Client) (line : String) : Prop where
  | login {p : LoginProfile} {id : UInt64} (hp : c.phase = .awaitingReply p id)
      (hl : config.parseLine line = .error .overflow)
  | mining {p : LoginProfile} {sid : String} (hp : c.phase = .mining p sid)
      (hne : Str.trim line ≠ "") (hl : config.parseLine (Str.trim line) = .error .overflow)
  | keepalive {p : LoginProfile} (hp : c.phase = .keepalive p)
      (hl : config.parseLine (Str.trim line) = .error .overflow)

/-- The steps that take the client out of its reconnect loop. -/
def LeavesLoop (config : ClientConfig) (c : Client) : ClientInput → Prop
  | .read .eof => c.phase.inSession = true
  | .read (.line line) => Panics config c line ∨ Overflows config c line
  | _ => False

/-- The lines a session goes on without. -/
inductive Skips (config : ClientConfig) (c : Client) (line : String) : Prop where
  | keepalive {p : LoginProfile} (hp : c.phase = .keepalive p)
      (hl : config.parseLine (Str.trim line) ≠ .error .overflow)
  | empty {p : LoginProfile} {sid : String} (hp : c.phase = .mining p sid)
      (hempty : Str.trim line = "")
  | refused {p : LoginProfile} {sid e : String} (hp : c.phase = .mining p sid)
      (hl : config.parseLine (Str.trim line) = .error (.json e))
      (hwhole : ¬ (config.warnEnabled = true ∧ Client.cutsCharacter (Str.trim line) = true))

/-- The inputs that make `run_session_with_profile` return an error, with the
error. -/
inductive Fails (config : ClientConfig) (c : Client) (p : LoginProfile) :
    ClientInput → Error → Prop where
  | connect {text : String} (hp : c.phase = .connecting p) :
      Fails config c p (.connect (.error text)) (.network text)
  | loginWrite {id : UInt64} {e : IoError} (hp : c.phase = .sendingLogin p id) :
      Fails config c p (.loginWritten (.error e)) (.io e)
  | loginEof {id : UInt64} (hp : c.phase = .awaitingReply p id) :
      Fails config c p (.read .eof) (.stratum "pool closed during login")
  | loginRead {id : UInt64} {e : IoError} (hp : c.phase = .awaitingReply p id) :
      Fails config c p (.read (.error e)) (.io e)
  | loginParse {id : UInt64} {line text : String} (hp : c.phase = .awaitingReply p id)
      (hl : config.parseLine line = .error (.json text)) :
      Fails config c p (.read (.line line)) (.json text)
  | loginError {id : UInt64} {line e : String} {msg : Json} (hp : c.phase = .awaitingReply p id)
      (hl : config.parseLine line = .ok msg) (hid : (msg.get "id").bind Json.asU64 = some id)
      (he : getJsonError msg = some e) :
      Fails config c p (.read (.line line)) (.stratum ("login failed: " ++ e))
  | read {e : IoError} (hp : c.phase.inSession = true) (hprofile : c.phase.profile = some p) :
      Fails config c p (.read (.error e)) (networkReadError e)
  | submitWrite {sid text : String} (hp : c.phase = .writing p sid) :
      Fails config c p (.submitWritten (.error text)) (.network text)

inductive ClientMoves (config : ClientConfig) (c : Client) :
    ClientInput → Client → List ClientObs → Prop where
  | stop (hp : c.phase ≠ .aborted) : ClientMoves config c .stop { c with running := false } []
  | watch (hr : c.running = false) (hp : c.phase ≠ .aborted) :
      ClientMoves config c .watch { c with shutdown := true } []
  | send {event : StratumEvent} {rest : List StratumEvent} (ho : c.outbox = event :: rest) :
      ClientMoves config c .sendEvent { c with outbox := rest } [.emitted event]
  | attempt (ho : c.outbox = []) (hp : c.phase = .loopHead) (hr : c.running = true) :
      ClientMoves config c .check { c with phase := .connecting .lite } [.attempt .lite]
  | leave (ho : c.outbox = []) (hp : c.phase = .loopHead) (hr : c.running = false) :
      ClientMoves config c .check c.finish.1 c.finish.2
  | opened {p : LoginProfile} (ho : c.outbox = []) (hp : c.phase = .connecting p) :
      ClientMoves config c (.connect (.ok ()))
        { c with phase := .sendingLogin p c.requestId, requestId := c.requestId + 1 }
        [.opened p, .login c.requestId (buildLogin config.login c.requestId p)]
  | loginSent {p : LoginProfile} {id : UInt64} (ho : c.outbox = [])
      (hp : c.phase = .sendingLogin p id) :
      ClientMoves config c (.loginWritten (.ok ())) { c with phase := .awaitingReply p id } []
  | loggedIn {p : LoginProfile} {id : UInt64} {line : String} {msg : Json}
      (ho : c.outbox = []) (hp : c.phase = .awaitingReply p id)
      (hl : config.parseLine line = .ok msg) (hid : (msg.get "id").bind Json.asU64 = some id)
      (he : getJsonError msg = none) :
      ClientMoves config c (.read (.line line)) (c.loggedIn config p msg).1
        (c.loggedIn config p msg).2
  | earlyMessage {p : LoginProfile} {id : UInt64} {line : String} {msg : Json}
      (ho : c.outbox = []) (hp : c.phase = .awaitingReply p id)
      (hl : config.parseLine line = .ok msg)
      (hid : (msg.get "id").bind Json.asU64 ≠ some id) :
      ClientMoves config c (.read (.line line)) (c.message msg).1 (c.message msg).2
  | message {p : LoginProfile} {sid line : String} {msg : Json}
      (ho : c.outbox = []) (hp : c.phase = .mining p sid) (hne : Str.trim line ≠ "")
      (hl : config.parseLine (Str.trim line) = .ok msg) :
      ClientMoves config c (.read (.line line)) (c.message msg).1 (c.message msg).2
  | skip {line : String} (ho : c.outbox = []) (hp : c.phase.inSession = true)
      (hskip : Skips config c line) :
      ClientMoves config c (.read (.line line)) c []
  | panic {line : String} (ho : c.outbox = []) (hbad : Panics config c line) :
      ClientMoves config c (.read (.line line)) { c with phase := .panicked } []
  | overflow {line : String} (ho : c.outbox = []) (hdeep : Overflows config c line) :
      ClientMoves config c (.read (.line line)) { c with phase := .aborted } []
  | eof (ho : c.outbox = []) (hp : c.phase.inSession = true) :
      ClientMoves config c (.read .eof) c.finish.1 c.finish.2
  | shutdown (ho : c.outbox = []) (hp : c.phase.inSession = true) (hs : c.shutdown = true) :
      ClientMoves config c .shutdownChanged c.finish.1 c.finish.2
  | submit {p : LoginProfile} {sid : String} {submission : Submission}
      (ho : c.outbox = []) (hp : c.phase = .mining p sid) :
      ClientMoves config c (.recvSubmit submission)
        { c with phase := .writing p sid, requestId := c.requestId + 1 }
        [.submit sid c.requestId submission (buildSubmit sid submission c.requestId)]
  | submitted {p : LoginProfile} {sid : String} (ho : c.outbox = [])
      (hp : c.phase = .writing p sid) :
      ClientMoves config c (.submitWritten (.ok ())) { c with phase := .mining p sid } []
  | failed {p : LoginProfile} {e : Error} {i : ClientInput} (ho : c.outbox = [])
      (hf : Fails config c p i e) : ClientMoves config c i (c.fail p e).1 (c.fail p e).2
  | wake (ho : c.outbox = []) (hp : c.phase = .backoff) :
      ClientMoves config c .wake { c with phase := .loopHead } []

section Moves

variable {config : ClientConfig} {c c' : Client} {os : List ClientObs}

theorem clientMoves_loginLine {p : LoginProfile} {id : UInt64} {line : String}
    (ho : c.outbox = []) (hp : c.phase = .awaitingReply p id) :
    ClientMoves config c (.read (.line line)) (c.loginLine config p id line).1
      (c.loginLine config p id line).2 := by
  unfold Client.loginLine
  cases hl : config.parseLine line with
  | error e =>
      cases e with
      | json text => exact .failed ho (.loginParse hp hl)
      | overflow => exact .overflow ho (.login hp hl)
  | ok msg =>
      by_cases hid : (msg.get "id").bind Json.asU64 = some id
      · simp only [if_pos hid]
        cases he : getJsonError msg with
        | some e => exact .failed ho (.loginError hp hl hid he)
        | none => exact .loggedIn ho hp hl hid he
      · simp only [if_neg hid]
        exact .earlyMessage ho hp hl hid

theorem clientMoves_miningLine {p : LoginProfile} {sid line : String}
    (ho : c.outbox = []) (hp : c.phase = .mining p sid) :
    ClientMoves config c (.read (.line line)) (c.miningLine config line).1
      (c.miningLine config line).2 := by
  have hin : c.phase.inSession = true := by rw [hp]; rfl
  unfold Client.miningLine
  by_cases hempty : Str.trim line = ""
  · simp only [if_pos hempty]
    exact .skip ho hin (.empty hp hempty)
  · simp only [if_neg hempty]
    cases hl : config.parseLine (Str.trim line) with
    | ok msg => exact .message ho hp hempty hl
    | error e =>
        cases e with
        | overflow => exact .overflow ho (.mining hp hempty hl)
        | json e =>
            by_cases hcut : config.warnEnabled = true ∧
                Client.cutsCharacter (Str.trim line) = true
            · simp only [if_pos hcut]
              exact .panic ho ⟨⟨p, sid, hp⟩, hcut.1, hcut.2, e, hl⟩
            · simp only [if_neg hcut]
              exact .skip ho hin (.refused hp hl hcut)

theorem clientMoves_keepaliveLine {p : LoginProfile} {line : String}
    (ho : c.outbox = []) (hp : c.phase = .keepalive p) :
    ClientMoves config c (.read (.line line)) (c.keepaliveLine config line).1
      (c.keepaliveLine config line).2 := by
  have hin : c.phase.inSession = true := by rw [hp]; rfl
  unfold Client.keepaliveLine
  split
  · next hl => exact .overflow ho (.keepalive hp hl)
  · next hl => exact .skip ho hin (.keepalive hp hl)

theorem clientMoves_of_some {i : ClientInput} {r : Client × List ClientObs}
    (h : some r = some (c', os)) (hm : ClientMoves config c i r.1 r.2) :
    ClientMoves config c i c' os := by
  obtain rfl := Option.some.inj h
  exact hm

theorem clientMoves_of_act {i : ClientInput} (ho : c.outbox = [])
    (h : c.act config c.phase i = some (c', os)) : ClientMoves config c i c' os := by
  cases hp : c.phase with
  | loopHead =>
      rw [hp] at h
      cases i <;> simp only [Client.act, reduceCtorEq] at h
      split at h
      · next hr =>
          cases h
          exact .attempt ho hp hr
      · next hr =>
          cases h
          exact .leave ho hp (by simpa using hr)
  | connecting p =>
      rw [hp] at h
      cases i <;> simp only [Client.act, reduceCtorEq] at h
      next outcome =>
        cases outcome with
        | ok u =>
            cases h
            exact .opened ho hp
        | error text =>
            exact clientMoves_of_some h (.failed ho (.connect hp))
  | sendingLogin p id =>
      rw [hp] at h
      cases i <;> simp only [Client.act, reduceCtorEq] at h
      next outcome =>
        cases outcome with
        | ok u =>
            cases h
            exact .loginSent ho hp
        | error e =>
            exact clientMoves_of_some h (.failed ho (.loginWrite hp))
  | awaitingReply p id =>
      rw [hp] at h
      cases i <;> simp only [Client.act, reduceCtorEq] at h
      next result =>
        cases result with
        | line line =>
            exact clientMoves_of_some h (clientMoves_loginLine ho hp)
        | eof =>
            exact clientMoves_of_some h (.failed ho (.loginEof hp))
        | error e =>
            exact clientMoves_of_some h (.failed ho (.loginRead hp))
  | mining p sid =>
      rw [hp] at h
      cases i <;> simp only [Client.act, reduceCtorEq] at h
      next result =>
        cases result with
        | line line =>
            exact clientMoves_of_some h (clientMoves_miningLine ho hp)
        | eof =>
            cases h
            exact .eof ho (by rw [hp]; rfl)
        | error e =>
            exact clientMoves_of_some h
              (.failed ho (.read (by rw [hp]; rfl) (by rw [hp]; rfl)))
      · split at h
        · next hs =>
            cases h
            exact .shutdown ho (by rw [hp]; rfl) hs
        · cases h
      · cases h
        exact .submit ho hp
  | writing p sid =>
      rw [hp] at h
      cases i <;> simp only [Client.act, reduceCtorEq] at h
      next outcome =>
        cases outcome with
        | ok u =>
            cases h
            exact .submitted ho hp
        | error text =>
            exact clientMoves_of_some h (.failed ho (.submitWrite hp))
  | keepalive p =>
      rw [hp] at h
      cases i <;> simp only [Client.act, reduceCtorEq] at h
      next result =>
        cases result with
        | line line =>
            exact clientMoves_of_some h (clientMoves_keepaliveLine ho hp)
        | eof =>
            cases h
            exact .eof ho (by rw [hp]; rfl)
        | error e =>
            exact clientMoves_of_some h
              (.failed ho (.read (by rw [hp]; rfl) (by rw [hp]; rfl)))
      · split at h
        · next hs =>
            cases h
            exact .shutdown ho (by rw [hp]; rfl) hs
        · cases h
  | backoff =>
      rw [hp] at h
      cases i <;> simp only [Client.act, reduceCtorEq] at h
      cases h
      exact .wake ho hp
  | returned =>
      rw [hp] at h
      cases i <;> simp only [Client.act, reduceCtorEq] at h
  | panicked =>
      rw [hp] at h
      cases i <;> simp only [Client.act, reduceCtorEq] at h
  | aborted =>
      rw [hp] at h
      cases i <;> simp only [Client.act, reduceCtorEq] at h

theorem clientMoves_of_step {i : ClientInput}
    (h : clientStep config c i = some (c', os)) : ClientMoves config c i c' os := by
  have hact : ∀ {j}, (if c.outbox = [] then c.act config c.phase j else none)
      = some (c', os) → ClientMoves config c j c' os := by
    intro j hj
    split at hj
    · next ho => exact clientMoves_of_act ho hj
    · cases hj
  cases i with
  | stop =>
      simp only [clientStep] at h
      split at h
      · cases h
      · next hp =>
          cases h
          exact .stop hp
  | watch =>
      simp only [clientStep] at h
      split at h
      · cases h
      · next hr =>
          cases h
          obtain ⟨hr, hp⟩ := not_or.mp hr
          exact .watch (by simpa using hr) hp
  | sendEvent =>
      simp only [clientStep] at h
      split at h
      · cases h
      · next ho =>
          cases h
          exact .send ho
  | check => exact hact h
  | connect outcome => exact hact h
  | loginWritten outcome => exact hact h
  | read result => exact hact h
  | shutdownChanged => exact hact h
  | recvSubmit submission => exact hact h
  | submitWritten outcome => exact hact h
  | wake => exact hact h

/-- Nothing happens without a process. -/
theorem ne_aborted_of_step {i : ClientInput} (ho : c.outbox = [])
    (h : clientStep config c i = some (c', os)) : c.phase ≠ .aborted := by
  intro hp
  cases i <;> simp [clientStep, hp, ho, Client.act] at h

/-- In `mining_loop` a line is read by `Client.miningLine`. -/
theorem miningLine_of_step {p : LoginProfile} {sid line : String} (hp : c.phase = .mining p sid)
    (hs : clientStep config c (.read (.line line)) = some (c', os)) :
    c.miningLine config line = (c', os) := by
  simp only [clientStep, hp, Client.act] at hs
  split at hs
  · exact Option.some.inj hs
  · cases hs

/-- In the loop of a login a line is read by `Client.loginLine`. -/
theorem loginLine_of_step {p : LoginProfile} {id : UInt64} {line : String}
    (hp : c.phase = .awaitingReply p id)
    (hs : clientStep config c (.read (.line line)) = some (c', os)) :
    c.loginLine config p id line = (c', os) := by
  simp only [clientStep, hp, Client.act] at hs
  split at hs
  · exact Option.some.inj hs
  · cases hs

theorem Fails.profile {p : LoginProfile} {i : ClientInput} {e : Error}
    (h : Fails config c p i e) : c.phase.profile = some p := by
  cases h with
  | read _ hprofile => exact hprofile
  | connect hp => rw [hp]; rfl
  | loginWrite hp => rw [hp]; rfl
  | loginEof hp => rw [hp]; rfl
  | loginRead hp => rw [hp]; rfl
  | loginParse hp _ => rw [hp]; rfl
  | loginError hp _ _ _ => rw [hp]; rfl
  | submitWrite hp => rw [hp]; rfl

theorem parseLine_ne_overflow (h : ∀ line, config.minify line ≠ .overflow) (line : String) :
    config.parseLine line ≠ .error .overflow := by
  unfold ClientConfig.parseLine parseJsonLine
  split
  · simp
  · have hminify := h line
    split
    · simp
    · contradiction
    · split <;> simp

theorem cutsCharacter_empty : Client.cutsCharacter "" = false := by decide

/-! ### The lines that end the loop, phase by phase -/

theorem LeavesLoop.of_login {p : LoginProfile} {id : UInt64} {line : String}
    (hp : c.phase = .awaitingReply p id) (h : LeavesLoop config c (.read (.line line))) :
    config.parseLine line = .error .overflow := by
  rcases h with ⟨⟨_, _, hp'⟩, -, -, -⟩ | ⟨_, hl⟩ | ⟨hp', -, -⟩ | ⟨hp', -⟩
  · rw [hp] at hp'
    cases hp'
  · exact hl
  · rw [hp] at hp'
    cases hp'
  · rw [hp] at hp'
    cases hp'

theorem LeavesLoop.of_mining {p : LoginProfile} {sid line : String}
    (hp : c.phase = .mining p sid) (h : LeavesLoop config c (.read (.line line))) :
    Str.trim line ≠ "" ∧ (Panics config c line ∨
      config.parseLine (Str.trim line) = .error .overflow) := by
  rcases h with hpanic | ⟨hp', -⟩ | ⟨-, hne, hl⟩ | ⟨hp', -⟩
  · refine ⟨fun hempty => ?_, Or.inl hpanic⟩
    have hcut := hpanic.cuts
    rw [hempty, cutsCharacter_empty] at hcut
    cases hcut
  · rw [hp] at hp'
    cases hp'
  · exact ⟨hne, Or.inr hl⟩
  · rw [hp] at hp'
    cases hp'

theorem LeavesLoop.of_keepalive {p : LoginProfile} {line : String}
    (hp : c.phase = .keepalive p) (h : LeavesLoop config c (.read (.line line))) :
    config.parseLine (Str.trim line) = .error .overflow := by
  rcases h with ⟨⟨_, _, hp'⟩, -, -, -⟩ | ⟨hp', -⟩ | ⟨hp', -, -⟩ | ⟨-, hl⟩
  · rw [hp] at hp'
    cases hp'
  · rw [hp] at hp'
    cases hp'
  · rw [hp] at hp'
    cases hp'
  · exact hl

theorem Panics.not_overflows {line : String} (h : Panics config c line) :
    ¬ Overflows config c line := by
  intro hdeep
  obtain ⟨p, sid, hp⟩ := h.mining
  obtain ⟨e, he⟩ := h.refused
  cases hdeep with
  | login hp' _ | keepalive hp' _ =>
      rw [hp] at hp'
      cases hp'
  | mining _ _ hl =>
      rw [he] at hl
      cases hl

theorem Fails.not_leavesLoop {p : LoginProfile} {i : ClientInput} {e : Error}
    (h : Fails config c p i e) : ¬ LeavesLoop config c i := by
  cases h with
  | loginEof hp => simp [LeavesLoop, hp, Phase.inSession]
  | loginParse hp hl =>
      intro hleaves
      have hdeep := hleaves.of_login hp
      rw [hl] at hdeep
      cases hdeep
  | loginError hp hl _ _ =>
      intro hleaves
      have hdeep := hleaves.of_login hp
      rw [hl] at hdeep
      cases hdeep
  | _ => exact id

theorem Skips.not_leavesLoop {line : String} (h : Skips config c line) :
    ¬ LeavesLoop config c (.read (.line line)) := by
  intro hleaves
  cases h with
  | keepalive hp hl => exact hl (hleaves.of_keepalive hp)
  | empty hp hempty => exact (hleaves.of_mining hp).1 hempty
  | refused hp hl hwhole =>
      rcases (hleaves.of_mining hp).2 with hpanic | hdeep
      · exact hwhole ⟨hpanic.warns, hpanic.cuts⟩
      · rw [hl] at hdeep
        cases hdeep

end Moves

theorem Client.fail_cases (c : Client) (p : LoginProfile) (e : Error) :
    (∃ next, p.next = some next ∧ isLoginRetryable e = true ∧
      c.fail p e = ({ c with phase := .connecting next }, [.attempt next])) ∨
    c.fail p e = ({ c with phase := .backoff, outbox := [.disconnected e.toString] }, []) := by
  unfold Client.fail
  split
  · next next hn =>
      by_cases hr : isLoginRetryable e = true
      · exact Or.inl ⟨next, hn, hr, by simp [hr]⟩
      · exact Or.inr (by simp [hr])
  · exact Or.inr rfl

/-! ## What a message makes known -/

section Observations

variable {P : ClientObs → Prop}

/-- A handled message is followed by its job at most. -/
theorem forall_mem_published (hjob : ∀ job, P (.published job)) (h : Handled) :
    ∀ o ∈ h.published, P o := by
  intro o ho
  cases h with
  | newJob job =>
      obtain rfl := List.mem_singleton.mp ho
      exact hjob job
  | _ => cases ho

theorem forall_mem_message (hjob : ∀ job, P (.published job)) (c : Client) {msg : Json}
    (hmsg : P (.message msg)) : ∀ o ∈ (c.message msg).2, P o :=
  List.forall_mem_cons.mpr ⟨hmsg, forall_mem_published hjob (handleMsg msg)⟩

theorem forall_mem_loggedIn (hjob : ∀ job, P (.published job)) (c : Client)
    (config : ClientConfig) (p : LoginProfile) {msg : Json} (hmsg : P (.loginReply msg)) :
    ∀ o ∈ (c.loggedIn config p msg).2, P o :=
  List.forall_mem_cons.mpr ⟨hmsg, forall_mem_published hjob (loginResult msg).2⟩

/-- What is read out of everything but jobs is read out of the message. -/
theorem filterMap_published {β : Type} {f : ClientObs → Option β}
    (hf : ∀ job, f (.published job) = none) (h : Handled) : h.published.filterMap f = [] :=
  List.filterMap_eq_nil_iff.mpr (forall_mem_published hf h)

end Observations

/-- The moves of a client that is in no attempt. -/
inductive IdleMoves (c : Client) : ClientInput → Client → List ClientObs → Prop where
  | stop : IdleMoves c .stop { c with running := false } []
  | watch (hr : c.running = false) : IdleMoves c .watch { c with shutdown := true } []
  | send {event : StratumEvent} {rest : List StratumEvent} (ho : c.outbox = event :: rest) :
      IdleMoves c .sendEvent { c with outbox := rest } [.emitted event]
  | attempt (ho : c.outbox = []) (hp : c.phase = .loopHead) (hr : c.running = true) :
      IdleMoves c .check { c with phase := .connecting .lite } [.attempt .lite]
  | leave (ho : c.outbox = []) (hp : c.phase = .loopHead) (hr : c.running = false) :
      IdleMoves c .check c.finish.1 c.finish.2
  | wake (ho : c.outbox = []) (hp : c.phase = .backoff) :
      IdleMoves c .wake { c with phase := .loopHead } []

theorem Phase.profile_of_inSession {phase : Phase} (h : phase.inSession = true) :
    phase.profile ≠ none := by
  cases phase <;> simp_all [Phase.inSession, Phase.profile]

theorem idleMoves_of_step {config : ClientConfig} {c c' : Client} {i : ClientInput}
    {os : List ClientObs} (hidle : c.phase.profile = none)
    (h : clientStep config c i = some (c', os)) : IdleMoves c i c' os := by
  cases clientMoves_of_step h with
  | stop => exact .stop
  | watch hr => exact .watch hr
  | send ho => exact .send ho
  | attempt ho hp hr => exact .attempt ho hp hr
  | leave ho hp hr => exact .leave ho hp hr
  | wake ho hp => exact .wake ho hp
  | skip _ hp _ => exact absurd hidle (Phase.profile_of_inSession hp)
  | panic _ hbad =>
      obtain ⟨_, _, hp⟩ := hbad.mining
      simp [hp, Phase.profile] at hidle
  | overflow _ hdeep => cases hdeep <;> simp_all [Phase.profile]
  | eof _ hp => exact absurd hidle (Phase.profile_of_inSession hp)
  | shutdown _ hp _ => exact absurd hidle (Phase.profile_of_inSession hp)
  | opened _ hp => simp [hp, Phase.profile] at hidle
  | loginSent _ hp => simp [hp, Phase.profile] at hidle
  | loggedIn _ hp => simp [hp, Phase.profile] at hidle
  | earlyMessage _ hp => simp [hp, Phase.profile] at hidle
  | message _ hp => simp [hp, Phase.profile] at hidle
  | submit _ hp => simp [hp, Phase.profile] at hidle
  | submitted _ hp => simp [hp, Phase.profile] at hidle
  | failed _ hf => simp [hf.profile] at hidle

/-! ## The reconnect loop -/

/-- A session has ended and the next one has not begun. -/
def Client.BetweenSessions (c : Client) : Prop := c.phase = .backoff ∨ c.phase = .loopHead

/-- The number of steps to the next attempt, between two sessions. -/
def Client.distance (c : Client) : Nat :=
  c.outbox.length + if c.phase = .backoff then 2 else 1

/-- While nobody calls `stop`, the flags are those of a client in its loop. -/
def Client.Alive (c : Client) : Prop :=
  c.LeftLoop ∨ (c.running = true ∧ c.shutdown = false)

section Loop

variable {config : ClientConfig} {c c' : Client} {i : ClientInput} {os : List ClientObs}

theorem Client.LeftLoop.profile (h : c.LeftLoop) : c.phase.profile = none := by
  rcases h with hp | hp | hp <;> rw [hp] <;> rfl

theorem Client.BetweenSessions.profile (h : c.BetweenSessions) : c.phase.profile = none := by
  rcases h with hp | hp <;> rw [hp] <;> rfl

theorem Client.BetweenSessions.not_leftLoop (h : c.BetweenSessions) : ¬ c.LeftLoop := by
  unfold Client.LeftLoop
  rcases h with hp | hp <;> rw [hp] <;> decide

/-- Nothing brings a client back into its loop. -/
theorem leftLoop_step (hc : c.LeftLoop) (hs : clientStep config c i = some (c', os)) :
    c'.LeftLoop := by
  have hout : ¬ c.BetweenSessions := fun hb => hb.not_leftLoop hc
  cases idleMoves_of_step hc.profile hs with
  | stop => exact hc
  | watch _ => exact hc
  | send _ => exact hc
  | attempt _ hp _ => exact absurd (Or.inr hp) hout
  | leave _ hp _ => exact absurd (Or.inr hp) hout
  | wake _ hp => exact absurd (Or.inl hp) hout

theorem alive_step (h : c.Alive) (hi : i ≠ .stop)
    (hs : clientStep config c i = some (c', os)) : c'.Alive := by
  by_cases hleft : c.LeftLoop
  · exact Or.inl (leftLoop_step hleft hs)
  obtain ⟨hr, hshut⟩ := h.resolve_left hleft
  cases clientMoves_of_step hs with
  | stop => exact absurd rfl hi
  | watch hr' => simp [hr] at hr'
  | leave _ _ hr' => simp [hr] at hr'
  | panic _ _ => exact Or.inl (Or.inr (Or.inl rfl))
  | overflow _ _ => exact Or.inl (Or.inr (Or.inr rfl))
  | eof _ _ => exact Or.inl (Or.inl rfl)
  | shutdown _ _ _ => exact Or.inl (Or.inl rfl)
  | @failed p e _ _ _ =>
      rcases c.fail_cases p e with ⟨next, _, _, hf⟩ | hf <;> rw [hf] <;>
        exact Or.inr ⟨hr, hshut⟩
  | _ => exact Or.inr ⟨hr, hshut⟩

/-- A client in its loop leaves it by exactly the steps of `LeavesLoop`. -/
theorem leftLoop_iff_of_step (h : c.Alive) (hc : ¬ c.LeftLoop) (hi : i ≠ .stop)
    (hs : clientStep config c i = some (c', os)) : c'.LeftLoop ↔ LeavesLoop config c i := by
  obtain ⟨hr, hshut⟩ := h.resolve_left hc
  have hstays : ∀ {d : Client}, d.phase = c.phase → ¬ d.LeftLoop := by
    intro d hd
    unfold Client.LeftLoop
    rw [hd]
    exact hc
  cases clientMoves_of_step hs with
  | stop => exact absurd rfl hi
  | watch hr' => simp [hr] at hr'
  | send _ => exact iff_of_false (hstays rfl) (by simp [LeavesLoop])
  | attempt _ _ _ => simp [Client.LeftLoop, LeavesLoop]
  | leave _ _ hr' => simp [hr] at hr'
  | opened _ _ => simp [Client.LeftLoop, LeavesLoop]
  | loginSent _ _ => simp [Client.LeftLoop, LeavesLoop]
  | @loggedIn p id line msg _ hp hl _ _ =>
      refine iff_of_false ?_ fun hleaves => ?_
      · simp only [Client.LeftLoop, Client.loggedIn]
        split <;> simp
      · have hdeep := hleaves.of_login hp
        rw [hl] at hdeep
        cases hdeep
  | earlyMessage _ hp hl _ =>
      refine iff_of_false (hstays rfl) fun hleaves => ?_
      have hdeep := hleaves.of_login hp
      rw [hl] at hdeep
      cases hdeep
  | @message p sid line msg _ hp _ hl =>
      refine iff_of_false (hstays rfl) fun hleaves => ?_
      rcases (hleaves.of_mining hp).2 with hpanic | hdeep
      · obtain ⟨e, he⟩ := hpanic.refused
        rw [hl] at he
        cases he
      · rw [hl] at hdeep
        cases hdeep
  | skip _ _ hskip => exact iff_of_false hc hskip.not_leavesLoop
  | panic _ hbad => exact iff_of_true (Or.inr (Or.inl rfl)) (Or.inl hbad)
  | overflow _ hdeep => exact iff_of_true (Or.inr (Or.inr rfl)) (Or.inr hdeep)
  | eof _ hp => exact iff_of_true (Or.inl rfl) hp
  | shutdown _ _ hs' => simp [hshut] at hs'
  | submit _ _ => simp [Client.LeftLoop, LeavesLoop]
  | submitted _ _ => simp [Client.LeftLoop, LeavesLoop]
  | @failed p e _ _ hfails =>
      refine iff_of_false ?_ hfails.not_leavesLoop
      rcases c.fail_cases p e with ⟨next, _, _, hf⟩ | hf <;> rw [hf] <;>
        simp [Client.LeftLoop]
  | wake _ _ => simp [Client.LeftLoop, LeavesLoop]

/-- Between two sessions some step is enabled. -/
theorem exists_step_of_between (h : c.BetweenSessions) :
    ∃ i, i ≠ .stop ∧ (clientStep config c i).isSome = true := by
  cases ho : c.outbox with
  | cons event rest => exact ⟨.sendEvent, by simp, by simp [clientStep, ho]⟩
  | nil =>
      rcases h with hp | hp
      · exact ⟨.wake, by simp, by simp [clientStep, ho, hp, Client.act]⟩
      · refine ⟨.check, by simp, ?_⟩
        simp only [clientStep, ho, hp, Client.act, if_true]
        split <;> rfl

/-- Between two sessions every step begins the next attempt or comes closer to
it. -/
theorem between_step (h : c.BetweenSessions) (halive : c.Alive) (hi : i ≠ .stop)
    (hs : clientStep config c i = some (c', os)) :
    (∃ p, .attempt p ∈ os) ∨ (c'.BetweenSessions ∧ c'.distance < c.distance) := by
  obtain ⟨hr, _⟩ := halive.resolve_left h.not_leftLoop
  cases idleMoves_of_step h.profile hs with
  | stop => exact absurd rfl hi
  | watch hr' => simp [hr] at hr'
  | send ho => exact Or.inr ⟨h, by simp [Client.distance, ho]⟩
  | attempt _ _ _ => exact Or.inl ⟨_, List.mem_singleton.mpr rfl⟩
  | leave _ _ hr' => simp [hr] at hr'
  | wake ho hp => exact Or.inr ⟨Or.inr rfl, by simp [Client.distance, hp]⟩

theorem alive_start : Client.start.Alive := Or.inr ⟨rfl, rfl⟩

end Loop

/-- A run without `stop` is still in the reconnect loop exactly when no step of
it was one of `LeavesLoop`; and wherever it is between two sessions, it goes on
to the next attempt. -/
theorem run_keeps_reconnecting_iff (config : ClientConfig) {is : List ClientInput}
    {c : Client} {tr : List ClientObs}
    (h : Run (clientStep config) (fun _ i => i ≠ .stop) .start is c tr) :
    (¬ c.LeftLoop ↔
      Run (clientStep config) (fun c i => i ≠ .stop ∧ ¬ LeavesLoop config c i) .start is c tr) ∧
    (c.BetweenSessions →
      (∃ i, i ≠ .stop ∧ (clientStep config c i).isSome = true) ∧
      ∀ i c' os, i ≠ .stop → clientStep config c i = some (c', os) →
        (∃ p, .attempt p ∈ os) ∨ (c'.BetweenSessions ∧ c'.distance < c.distance)) := by
  have halive := h.withInvariant (P := Client.Alive) alive_start
    fun ha hi hs => alive_step ha hi hs
  refine ⟨?_, fun hb => ⟨exists_step_of_between hb, fun i c' os hi hs =>
    between_step hb (h.stateInvariant alive_start fun ha hi hs => alive_step ha hi hs) hi hs⟩⟩
  rw [halive.avoids_iff (F := Client.LeftLoop) (by simp [Client.LeftLoop, Client.start])
    (fun hc hok hs => leftLoop_iff_of_step hok.2 hc hok.1 hs)
    fun hc _ hs => leftLoop_step hc hs]
  constructor
  · exact fun hrun => hrun.mono fun c i hok => ⟨hok.1.1, hok.2⟩
  · intro hrun
    refine (hrun.withInvariant (P := Client.Alive) alive_start
      fun ha hi hs => alive_step ha hi.1 hs).mono ?_
    exact fun c i hok => ⟨⟨hok.1.1, hok.2⟩, hok.1.2⟩

/-! ### Two short runs -/

/-- A login reply without a job. -/
def loginReplyLine : String := "\x7b\"id\":1,\"result\":\x7b\"id\":\"s\"\x7d\x7d"

/-- A message with a null id. -/
def nullIdLine : String := "\x7b\"id\":null\x7d"

/-- What `serde_json` makes of these two lines. -/
def sampleParse (line : String) : Except String Json :=
  if line = loginReplyLine then
    .ok (.object [("id", .number (.posInt 1)), ("result", .object [("id", .string "s")])])
  else if line = nullIdLine then .ok (.object [("id", .null)])
  else .error "expected value at line 1 column 1"

def sampleConfig : ClientConfig :=
  { parse := sampleParse, minify := fun _ => .refused, warnEnabled := true, keepalive := false
    login :=
      { user := "wallet", pass := "x", userAgent := "agent", minerSignature := none
        http2 := false, http3 := false, ws := false, algoPerf := [], algoMinTime := none } }

/-- The same client with a parser for every line. -/
def readingConfig : ClientConfig :=
  { sampleConfig with
    parse := fun line =>
      match JsonText.read line with
      | some v => .ok v
      | none => .error "expected value" }

/-- A refused connection, and the next attempt. -/
def refusedRun : List ClientInput :=
  [.check, .connect (.error "connection refused"), .sendEvent, .wake, .check]

theorem run_keeps_reconnecting_refused :
    ∃ c tr, Run (clientStep sampleConfig) (fun _ i => i ≠ .stop) .start refusedRun c tr ∧
      ¬ c.LeftLoop := by
  have hgood : ∀ (c : Client), ∀ i ∈ refusedRun,
      i ≠ .stop ∧ ¬ LeavesLoop sampleConfig c i := by
    intro c i hi
    simp only [refusedRun, List.mem_cons, List.not_mem_nil, or_false] at hi
    rcases hi with rfl | rfl | rfl | rfl | rfl <;> simp [LeavesLoop]
  have hexec : (exec (clientStep sampleConfig) .start refusedRun).any (fun _ => true)
      = true := by decide
  obtain ⟨c, tr, hrun, -⟩ := run_of_exec_test (p := fun _ _ => true) hexec hgood
  have hplain : Run (clientStep sampleConfig) (fun _ i => i ≠ .stop) .start refusedRun c tr :=
    hrun.mono fun _ _ hok => hok.1
  exact ⟨c, tr, hplain, (run_keeps_reconnecting_iff sampleConfig hplain).1.mpr hrun⟩

/-- A session that logs in and whose stream then ends. -/
def eofRun : List ClientInput :=
  [.check, .connect (.ok ()), .loginWritten (.ok ()), .read (.line loginReplyLine),
    .sendEvent, .read .eof]

/-- The end of the stream after a login makes `run` return. -/
theorem eof_after_login_returns :
    ∃ c tr, Run (clientStep sampleConfig) (fun _ i => i ≠ .stop) .start eofRun c tr ∧
      c.LeftLoop := by
  have hnostop : ∀ (_ : Client), ∀ i ∈ eofRun, i ≠ .stop := by
    intro c i hi
    simp only [eofRun, List.mem_cons, List.not_mem_nil, or_false] at hi
    rcases hi with rfl | rfl | rfl | rfl | rfl | rfl <;> simp
  have hexec : (exec (clientStep sampleConfig) .start eofRun).any
      (fun r => decide (r.1.phase = .returned)) = true := by decide
  obtain ⟨c, tr, hrun, hp⟩ := run_of_exec_test
    (p := fun (c : Client) (_ : List ClientObs) => decide (c.phase = .returned)) hexec hnostop
  exact ⟨c, tr, hrun, Or.inl (of_decide_eq_true hp)⟩

end LiteXmr.Stratum
