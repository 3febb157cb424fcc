/-
LiteXmr.Stratum.ClientEventTheorems — the events and submit lines of the
stratum client, over every run against an arbitrary pool.

* `outbox_ne_nil_iff_reports` — the steps that raise an event, told by the
  input and the state before the step (`Reports`).
* `replies_of_run` — the `Accepted` and `Rejected` events of a session
  answer, one for one and in order, the messages of that session that
  `handle_msg` takes for replies. Which those are depends on the keys of the
  message alone (`replyOf_eq_some_iff`), not on what was submitted.
* `sessionId_of_run` — the client submits under the id that the login reply
  of the current session gave.
-/
import LiteXmr.Stratum.ClientTheorems

namespace LiteXmr.Stratum

open Lts

/-! ## The steps that raise an event -/

/-- An error ends the session: there is no further profile, or it is not an
error to try the next profile after. -/
def Client.EndsSession (c : Client) (e : Error) : Prop :=
  ∃ p, c.phase.profile = some p ∧ (p.next = none ∨ isLoginRetryable e = false)

/-- There is something to report about a line. -/
def ReportsLine (config : ClientConfig) (c : Client) (line : String) : Prop :=
  match c.phase with
  | .awaitingReply _ loginId =>
      match config.parseLine line with
      | .error (.json text) => c.EndsSession (.json text)
      | .error .overflow => False
      | .ok msg =>
          if (msg.get "id").bind Json.asU64 = some loginId then
            ∀ e, getJsonError msg = some e → c.EndsSession (.stratum ("login failed: " ++ e))
          else (handleMsg msg).events ≠ []
  | .mining _ _ =>
      Str.trim line ≠ "" ∧
        ∃ msg, config.parseLine (Str.trim line) = .ok msg ∧ (handleMsg msg).events ≠ []
  | _ => False

/-- The steps that raise an event. -/
def Reports (config : ClientConfig) (c : Client) : ClientInput → Prop
  | .connect (.error text) => c.EndsSession (.network text)
  | .loginWritten (.error e) => c.EndsSession (.io e)
  | .submitWritten (.error text) => c.EndsSession (.network text)
  | .read (.line line) => ReportsLine config c line
  | .read .eof =>
      c.phase.inSession = false ∧ c.EndsSession (.stratum "pool closed during login")
  | .read (.error e) =>
      c.EndsSession (if c.phase.inSession then networkReadError e else .io e)
  | _ => False

section Reports

variable {config : ClientConfig} {c c' : Client} {i : ClientInput} {os : List ClientObs}

theorem fail_outbox_iff {p : LoginProfile} (e : Error) (ho : c.outbox = [])
    (hp : c.phase.profile = some p) : (c.fail p e).1.outbox ≠ [] ↔ c.EndsSession e := by
  have hends : c.EndsSession e ↔ p.next = none ∨ isLoginRetryable e = false := by
    unfold Client.EndsSession
    rw [hp]
    simp
  rw [hends]
  unfold Client.fail
  cases hn : p.next with
  | none => simp
  | some next => cases hr : isLoginRetryable e <;> simp [ho]

theorem loggedIn_outbox_ne_nil (c : Client) (config : ClientConfig) (p : LoginProfile)
    (msg : Json) : (c.loggedIn config p msg).1.outbox ≠ [] := by
  simp [Client.loggedIn]

theorem Fails.reports_iff {p : LoginProfile} {e : Error} (h : Fails config c p i e) :
    Reports config c i ↔ c.EndsSession e := by
  cases h with
  | connect _ => exact Iff.rfl
  | loginWrite _ => exact Iff.rfl
  | loginEof hp => simp [Reports, hp, Phase.inSession]
  | loginRead hp => simp [Reports, hp, Phase.inSession]
  | loginParse hp hl => simp [Reports, ReportsLine, hp, hl]
  | loginError hp hl hid he => simp [Reports, ReportsLine, hp, hl, hid, he]
  | read hin _ => simp [Reports, hin]
  | submitWrite _ => exact Iff.rfl

theorem Skips.not_reportsLine {line : String} (h : Skips config c line) :
    ¬ ReportsLine config c line := by
  cases h with
  | keepalive hp _ => simp [ReportsLine, hp]
  | empty hp hempty => simp [ReportsLine, hp, hempty]
  | refused hp hl _ => simp [ReportsLine, hp, hl]

theorem LeavesLoop.not_reports (h : LeavesLoop config c i) : ¬ Reports config c i := by
  match i, h with
  | .read .eof, hin => exact fun hr => by simp [LeavesLoop, hr.1] at hin
  | .read (.line line), .inl hpanic =>
      obtain ⟨⟨p, sid, hp⟩, -, -, e, he⟩ := hpanic
      simp [Reports, ReportsLine, hp, he]
  | .read (.line line), .inr hdeep =>
      cases hdeep with
      | login hp hl => simp [Reports, ReportsLine, hp, hl]
      | mining hp _ hl => simp [Reports, ReportsLine, hp, hl]
      | keepalive hp _ => simp [Reports, ReportsLine, hp]

/-- With no event waiting, a step leaves one waiting exactly when it is one of
`Reports`. -/
theorem outbox_ne_nil_iff_reports (ho : c.outbox = [])
    (hs : clientStep config c i = some (c', os)) : c'.outbox ≠ [] ↔ Reports config c i := by
  have hquiet : ¬ Reports config c i → (c.outbox ≠ [] ↔ Reports config c i) :=
    iff_of_false (not_not.mpr ho)
  cases clientMoves_of_step hs with
  | send hsend =>
      rw [ho] at hsend
      cases hsend
  | loggedIn _ hp hl hid he =>
      exact iff_of_true (loggedIn_outbox_ne_nil c config _ _)
        (by simp [Reports, ReportsLine, hp, hl, hid, he])
  | earlyMessage _ hp hl hid => simp [Reports, ReportsLine, hp, hl, hid, Client.message]
  | message _ hp hne hl => simp [Reports, ReportsLine, hp, hne, hl, Client.message]
  | skip _ _ hskip => exact hquiet hskip.not_reportsLine
  | panic _ hbad =>
      exact hquiet (LeavesLoop.not_reports (i := .read (.line _)) (Or.inl hbad))
  | overflow _ hdeep =>
      exact hquiet (LeavesLoop.not_reports (i := .read (.line _)) (Or.inr hdeep))
  | eof _ hin => exact hquiet (LeavesLoop.not_reports hin)
  | failed _ hf =>
      rw [hf.reports_iff]
      exact fail_outbox_iff _ ho hf.profile
  | _ => exact hquiet id

/-- While an event is waiting, only flags change. -/
theorem blocked_step (ho : c.outbox ≠ []) (hi : i ≠ .sendEvent)
    (hs : clientStep config c i = some (c', os)) :
    c'.outbox = c.outbox ∧ c'.phase = c.phase := by
  cases clientMoves_of_step hs with
  | stop => exact ⟨rfl, rfl⟩
  | watch _ => exact ⟨rfl, rfl⟩
  | send _ => exact absurd rfl hi
  | _ => contradiction

/-- A client that has left its loop has nothing waiting. -/
def Client.Settled (c : Client) : Prop := c.LeftLoop → c.outbox = []

theorem settled_start : Client.start.Settled := fun _ => rfl

theorem settled_step (h : c.Settled) (hs : clientStep config c i = some (c', os)) :
    c'.Settled := by
  intro hleft
  have hbefore : c'.phase = c.phase → c.outbox = [] := by
    intro hp
    exact h (by rwa [Client.LeftLoop, hp] at hleft)
  cases clientMoves_of_step hs with
  | stop => exact hbefore rfl
  | watch _ => exact hbefore rfl
  | send ho => simp [ho] at hbefore
  | loggedIn _ _ _ _ _ =>
      exfalso
      simp only [Client.LeftLoop, Client.loggedIn] at hleft
      split at hleft <;> simp at hleft
  | @earlyMessage p _ _ _ _ hp _ _ => simp [Client.LeftLoop, Client.message, hp] at hleft
  | message _ hp _ _ => simp [Client.LeftLoop, Client.message, hp] at hleft
  | @failed p e _ ho _ =>
      rcases c.fail_cases p e with ⟨next, _, _, hf⟩ | hf <;> rw [hf] at hleft ⊢
      · exact ho
      · simp [Client.LeftLoop] at hleft
  | _ => assumption

end Reports

/-! ## Replies -/

/-- The event a message is answered with. -/
def replyOf (msg : Json) : Option StratumEvent :=
  match handleMsg msg with
  | .reply event => some event
  | _ => none

/-- A reply is an object with an id, whatever the id is, and without a method
name; it is a rejection when its error is not null. -/
theorem replyOf_eq_some_iff (msg : Json) (event : StratumEvent) :
    replyOf msg = some event ↔
      (msg.get "id").isSome = true ∧ (msg.get "method").bind Json.asStr = none ∧
        event = match msg.get "error" with
          | none | some .null => .accepted
          | some err => .rejected (formatJsonError err) := by
  have hofJob : ∀ job e, Handled.ofJob job ≠ .reply e := by
    intro job e
    unfold Handled.ofJob
    split
    · split <;> simp
    · simp
  unfold replyOf handleMsg
  cases hm : (msg.get "method").bind Json.asStr with
  | some method =>
      simp only [reduceCtorEq, false_and, and_false, iff_false]
      split
      · next event' heq =>
          split at heq
          · exact absurd heq (hofJob _ _)
          · split at heq
            · exact absurd heq (hofJob _ _)
            · cases heq
      · simp
  | none =>
      cases hid : msg.get "id" with
      | none => simp
      | some id =>
          simp only [Option.isSome_some, true_and]
          cases he : msg.get "error" with
          | none => simp [eq_comm]
          | some err => cases err <;> simp [eq_comm]

def StratumEvent.isShare : StratumEvent → Bool
  | .accepted | .rejected _ => true
  | _ => false

theorem isShare_of_replyOf {msg : Json} {event : StratumEvent}
    (h : replyOf msg = some event) : event.isShare = true := by
  obtain ⟨_, _, rfl⟩ := (replyOf_eq_some_iff msg event).mp h
  split <;> rfl

/-- The events a message leaves: its answer, or nothing that counts as one. -/
theorem filter_isShare_events (msg : Json) :
    (handleMsg msg).events.filter StratumEvent.isShare = (replyOf msg).toList := by
  cases hh : handleMsg msg with
  | nothing => simp [replyOf, hh, Handled.events]
  | newJob job => simp [replyOf, hh, Handled.events, StratumEvent.isShare]
  | reply event =>
      have hr : replyOf msg = some event := by simp [replyOf, hh]
      simp [hr, Handled.events, isShare_of_replyOf hr]

/-- The share events among observations. -/
def ClientObs.shareEvent : ClientObs → Option StratumEvent
  | .emitted event => if event.isShare then some event else none
  | _ => none

/-- The answer of a message that goes through `handle_msg`. -/
def ClientObs.reply : ClientObs → Option StratumEvent
  | .message msg => replyOf msg
  | _ => none

def ClientObs.isOpened : ClientObs → Bool
  | .opened _ => true
  | _ => false

/-- The observations of the current session: those since its transport was
opened. -/
def session (tr : List ClientObs) : List ClientObs :=
  (tr.reverse.takeWhile fun o => !o.isOpened).reverse

theorem session_sublist (tr : List ClientObs) : (session tr).Sublist tr := by
  unfold session
  rw [← List.reverse_reverse tr, List.reverse_sublist, List.reverse_reverse]
  exact List.takeWhile_sublist _

theorem session_append {tr os : List ClientObs} (h : ∀ o ∈ os, o.isOpened = false) :
    session (tr ++ os) = session tr ++ os := by
  unfold session
  rw [List.reverse_append, List.takeWhile_append_of_pos (by simpa using h),
    List.reverse_append, List.reverse_reverse]

theorem session_opened {tr os : List ClientObs} (p : LoginProfile)
    (h : ∀ o ∈ os, o.isOpened = false) : session (tr ++ .opened p :: os) = os := by
  have hempty : session (tr ++ [.opened p]) = [] := by
    simp [session, ClientObs.isOpened]
  rw [List.append_cons, session_append h, hempty, List.nil_append]

section Replies

variable {config : ClientConfig} {c c' : Client} {i : ClientInput} {os : List ClientObs}

/-- What a message adds: its answer waits in the outbox. -/
theorem message_balance (c : Client) (msg : Json) :
    (c.message msg).2.filterMap ClientObs.shareEvent
        ++ (c.message msg).1.outbox.filter StratumEvent.isShare
      = (c.message msg).2.filterMap ClientObs.reply := by
  have hshare := filterMap_published (f := ClientObs.shareEvent) (fun _ => rfl) (handleMsg msg)
  have hreply := filterMap_published (f := ClientObs.reply) (fun _ => rfl) (handleMsg msg)
  simp only [Client.message, List.filterMap_cons, hshare, hreply, ClientObs.shareEvent,
    ClientObs.reply, filter_isShare_events, List.nil_append]
  cases replyOf msg <;> rfl

theorem loggedIn_balance (c : Client) (config : ClientConfig) (p : LoginProfile) (msg : Json) :
    (c.loggedIn config p msg).2.filterMap ClientObs.shareEvent
        ++ (c.loggedIn config p msg).1.outbox.filter StratumEvent.isShare
      = (c.loggedIn config p msg).2.filterMap ClientObs.reply := by
  have hjob : ∀ job, (Handled.ofJob job).events.filter StratumEvent.isShare = [] := by
    intro job
    unfold Handled.ofJob
    split
    · split <;> rfl
    · rfl
  have hevents : (loginResult msg).2.events.filter StratumEvent.isShare = [] := by
    unfold loginResult
    split
    · rfl
    · exact hjob _
  have hshare := filterMap_published (f := ClientObs.shareEvent) (fun _ => rfl)
    (loginResult msg).2
  have hreply := filterMap_published (f := ClientObs.reply) (fun _ => rfl) (loginResult msg).2
  simp [Client.loggedIn, ClientObs.shareEvent, ClientObs.reply, List.filterMap_cons, hshare,
    hreply, hevents, StratumEvent.isShare]

theorem finish_balance (ho : c.outbox = []) :
    c.finish.2.filterMap ClientObs.shareEvent ++ c.finish.1.outbox.filter StratumEvent.isShare
      = c.outbox.filter StratumEvent.isShare ++ c.finish.2.filterMap ClientObs.reply := by
  simp [Client.finish, ho, ClientObs.shareEvent, ClientObs.reply, List.filterMap_cons]

/-- One step: what was waiting and what was answered has been reported or is
waiting. -/
theorem reply_balance (hs : clientStep config c i = some (c', os)) :
    os.filterMap ClientObs.shareEvent ++ c'.outbox.filter StratumEvent.isShare
      = c.outbox.filter StratumEvent.isShare ++ os.filterMap ClientObs.reply := by
  cases clientMoves_of_step hs with
  | stop => simp
  | watch _ => simp
  | @send event rest ho =>
      cases he : event.isShare <;>
        simp [ho, ClientObs.shareEvent, ClientObs.reply, he, List.filterMap_cons]
  | attempt ho _ _ => simp [ho, ClientObs.shareEvent, ClientObs.reply, List.filterMap_cons]
  | leave ho _ _ => exact finish_balance ho
  | opened ho _ => simp [ho, ClientObs.shareEvent, ClientObs.reply, List.filterMap_cons]
  | loginSent ho _ => simp [ho]
  | loggedIn ho _ _ _ _ =>
      rw [loggedIn_balance, ho]
      rfl
  | earlyMessage ho _ _ _ =>
      rw [message_balance, ho]
      rfl
  | message ho _ _ _ =>
      rw [message_balance, ho]
      rfl
  | skip ho _ _ => simp [ho]
  | panic ho _ | overflow ho _ => simp [ho]
  | eof ho _ => exact finish_balance ho
  | shutdown ho _ _ => exact finish_balance ho
  | submit ho _ => simp [ho, ClientObs.shareEvent, ClientObs.reply, List.filterMap_cons]
  | submitted ho _ => simp [ho]
  | @failed p e _ ho _ =>
      rcases c.fail_cases p e with ⟨next, _, _, hf⟩ | hf <;>
        simp [hf, ho, ClientObs.shareEvent, ClientObs.reply, StratumEvent.isShare,
          List.filterMap_cons]
  | wake ho _ => simp [ho]

/-- Only the event channel takes events. -/
theorem emitted_of_step {event : StratumEvent} (hs : clientStep config c i = some (c', os))
    (hmem : .emitted event ∈ os) : i = .sendEvent := by
  cases clientMoves_of_step hs with
  | send _ => rfl
  | loggedIn _ _ _ _ _ =>
      exact (forall_mem_loggedIn (P := (· ≠ .emitted event)) (by simp) c config _ (by simp) _
        hmem rfl).elim
  | earlyMessage _ _ _ _ =>
      exact (forall_mem_message (P := (· ≠ .emitted event)) (by simp) c (by simp) _ hmem
        rfl).elim
  | message _ _ _ _ =>
      exact (forall_mem_message (P := (· ≠ .emitted event)) (by simp) c (by simp) _ hmem
        rfl).elim
  | @failed p e _ _ _ =>
      rcases c.fail_cases p e with ⟨next, _, _, hf⟩ | hf <;> simp [hf] at hmem
  | _ => simp [Client.finish] at hmem

theorem shareEvent_of_step (hi : i ≠ .sendEvent) (hs : clientStep config c i = some (c', os)) :
    os.filterMap ClientObs.shareEvent = [] := by
  rw [List.filterMap_eq_nil_iff]
  intro o ho
  cases o with
  | emitted event => exact absurd (emitted_of_step hs ho) hi
  | _ => rfl

/-- A step that opens a transport reports nothing and leaves nothing waiting. -/
theorem opened_of_step (hs : clientStep config c i = some (c', os)) :
    (∀ o ∈ os, o.isOpened = false) ∨
      ∃ p id msg, os = [.opened p, .login id msg] ∧ c'.outbox = [] ∧
        c'.phase = .sendingLogin p id := by
  cases clientMoves_of_step hs with
  | @opened p ho _ => exact Or.inr ⟨p, _, _, rfl, ho, rfl⟩
  | loggedIn _ _ _ _ _ => exact Or.inl (forall_mem_loggedIn (fun _ => rfl) c config _ rfl)
  | earlyMessage _ _ _ _ => exact Or.inl (forall_mem_message (fun _ => rfl) c rfl)
  | message _ _ _ _ => exact Or.inl (forall_mem_message (fun _ => rfl) c rfl)
  | @failed p e _ _ _ =>
      rcases c.fail_cases p e with ⟨next, _, _, hf⟩ | hf <;>
        exact Or.inl (by simp [hf, ClientObs.isOpened])
  | _ => exact Or.inl (by simp [ClientObs.isOpened, Client.finish])

end Replies

/-- At every point of every run the share events of the current session, and
of the whole run, are the answers of its messages in order, but for those still
waiting to be sent. -/
theorem replies_of_run {config : ClientConfig} {is : List ClientInput} {c : Client}
    {tr : List ClientObs} {ok : Client → ClientInput → Prop}
    (h : Run (clientStep config) ok .start is c tr) :
    ((session tr).filterMap ClientObs.shareEvent ++ c.outbox.filter StratumEvent.isShare
        = (session tr).filterMap ClientObs.reply) ∧
      (tr.filterMap ClientObs.shareEvent ++ c.outbox.filter StratumEvent.isShare
        = tr.filterMap ClientObs.reply) := by
  refine h.invariant (P := fun c tr =>
    ((session tr).filterMap ClientObs.shareEvent ++ c.outbox.filter StratumEvent.isShare
        = (session tr).filterMap ClientObs.reply) ∧
      (tr.filterMap ClientObs.shareEvent ++ c.outbox.filter StratumEvent.isShare
        = tr.filterMap ClientObs.reply)) (by simp [session, Client.start]) ?_
  intro c c' tr os i ih _ hs
  obtain ⟨hsession, htrace⟩ := ih
  have hbalance := reply_balance hs
  constructor
  · rcases opened_of_step hs with hno | ⟨p, id, msg, rfl, hout, _⟩
    · rw [session_append hno, List.filterMap_append, List.filterMap_append, List.append_assoc,
        hbalance, ← List.append_assoc, hsession]
    · rw [session_opened p (by simp [ClientObs.isOpened]), hout]
      simp [ClientObs.shareEvent, ClientObs.reply, List.filterMap_cons]
  · rw [List.filterMap_append, List.filterMap_append, List.append_assoc, hbalance,
      ← List.append_assoc, htrace]

/-! ## The session id -/

/-- The id the client submits under, once a session is logged in. -/
def Phase.sessionId : Phase → Option String
  | .mining _ sid | .writing _ sid => some sid
  | _ => none

theorem sessionId_step {config : ClientConfig} {c c' : Client} {i : ClientInput}
    {os : List ClientObs} {sid : String} (hsid : c'.phase.sessionId = some sid)
    (hs : clientStep config c i = some (c', os)) :
    c.phase.sessionId = some sid ∨ ∃ msg, .loginReply msg ∈ os ∧ (loginResult msg).1 = sid := by
  cases clientMoves_of_step hs with
  | @loggedIn p id line msg _ _ _ _ _ =>
      refine Or.inr ⟨msg, by simp [Client.loggedIn], ?_⟩
      simp only [Client.loggedIn] at hsid
      split at hsid
      · cases hsid
      · exact Option.some.inj hsid
  | submit _ hp => exact Or.inl (by rw [hp]; exact hsid)
  | submitted _ hp => exact Or.inl (by rw [hp]; exact hsid)
  | @failed p e _ _ _ =>
      rcases c.fail_cases p e with ⟨next, _, _, hf⟩ | hf <;> rw [hf] at hsid <;> cases hsid
  | stop => exact Or.inl hsid
  | watch _ => exact Or.inl hsid
  | send _ => exact Or.inl hsid
  | skip _ _ _ => exact Or.inl hsid
  | earlyMessage _ _ _ _ => exact Or.inl hsid
  | message _ _ _ _ => exact Or.inl hsid
  | _ => cases hsid

/-- A submit line is written for a submission taken from the queue. -/
theorem submit_of_step {config : ClientConfig} {c c' : Client} {i : ClientInput}
    {os : List ClientObs} {sid line : String} {id : UInt64} {submission : Submission}
    (hs : clientStep config c i = some (c', os)) (hmem : .submit sid id submission line ∈ os) :
    i = .recvSubmit submission ∧ c.phase.sessionId = some sid ∧
      line = buildSubmit sid submission id := by
  cases clientMoves_of_step hs with
  | submit _ hp =>
      simp only [List.mem_singleton, ClientObs.submit.injEq] at hmem
      obtain ⟨rfl, rfl, rfl, rfl⟩ := hmem
      exact ⟨rfl, by rw [hp]; rfl, rfl⟩
  | loggedIn _ _ _ _ _ =>
      exact (forall_mem_loggedIn (P := (· ≠ .submit sid id submission line)) (by simp) c config _
        (by simp) _ hmem rfl).elim
  | earlyMessage _ _ _ _ =>
      exact (forall_mem_message (P := (· ≠ .submit sid id submission line)) (by simp) c (by simp) _
        hmem rfl).elim
  | message _ _ _ _ =>
      exact (forall_mem_message (P := (· ≠ .submit sid id submission line)) (by simp) c (by simp) _
        hmem rfl).elim
  | @failed p e _ _ _ =>
      rcases c.fail_cases p e with ⟨next, _, _, hf⟩ | hf <;> simp [hf] at hmem
  | _ => simp [Client.finish] at hmem

/-- The client submits under the id of the current session's login reply. -/
theorem sessionId_of_run {config : ClientConfig} {is : List ClientInput} {c : Client}
    {tr : List ClientObs} {ok : Client → ClientInput → Prop}
    (h : Run (clientStep config) ok .start is c tr) {sid : String}
    (hsid : c.phase.sessionId = some sid) :
    ∃ msg, .loginReply msg ∈ session tr ∧ (loginResult msg).1 = sid := by
  refine h.invariant (P := fun c tr => ∀ sid, c.phase.sessionId = some sid →
    ∃ msg, .loginReply msg ∈ session tr ∧ (loginResult msg).1 = sid)
    (by simp [Client.start, Phase.sessionId]) ?_ sid hsid
  intro c c' tr os i ih _ hs sid hsid
  rcases opened_of_step hs with hno | ⟨p, id, msg, rfl, _, hp⟩
  · rw [session_append hno]
    rcases sessionId_step hsid hs with hbefore | ⟨msg, hmem, hmsg⟩
    · obtain ⟨msg, hmem, hmsg⟩ := ih sid hbefore
      exact ⟨msg, List.mem_append_left _ hmem, hmsg⟩
    · exact ⟨msg, List.mem_append_right _ hmem, hmsg⟩
  · rw [hp] at hsid
    cases hsid

end LiteXmr.Stratum
