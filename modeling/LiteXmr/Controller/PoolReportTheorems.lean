/-
LiteXmr.Controller.PoolReportTheorems — what the controller knows of the
sessions of the client.

The client reports an accepted login with `Connected`, deep in the attempt,
and the end of a session with `Disconnected`, in the error arm of the
outermost loop. A session that ends in another way is not reported: `run`
returns, the task panics, or `run_session` goes on to the next profile
(`LeavesSilently`).

`session_reporting_iff` says that every `Connected` is followed by a
`Disconnected` before anything else is begun, and that the controller's flag
tells whether a session is open once the events on their way are processed,
exactly in the runs without such a step. `flag_outlives_session` is a run that
has one.
-/
import LiteXmr.Controller.PoolModeTheorems
import LiteXmr.Stratum.ClientSessionTheorems

namespace LiteXmr.Stratum

open Lts

/-! ## Reports -/

/-- The flag `logged_in` after an event. -/
def setLoggedIn (flag : Bool) : StratumEvent → Bool
  | .connected => true
  | .disconnected _ => false
  | _ => flag

def flagAfter (flag : Bool) (events : List StratumEvent) : Bool := events.foldl setLoggedIn flag

@[simp] theorem flagAfter_append (flag : Bool) (es fs : List StratumEvent) :
    flagAfter flag (es ++ fs) = flagAfter (flagAfter flag es) fs := List.foldl_append

def ClientObs.event : ClientObs → Option StratumEvent
  | .emitted event => some event
  | _ => none

/-- The events the client has sent. -/
def emittedEvents (tr : List ClientObs) : List StratumEvent := tr.filterMap ClientObs.event

@[simp] theorem emittedEvents_append (tr os : List ClientObs) :
    emittedEvents (tr ++ os) = emittedEvents tr ++ emittedEvents os := List.filterMap_append

/-- Before the next login is reported, the next attempt begins and `run`
returns, the last of the reports is not `Connected`. -/
def ReportedBefore (past : List ClientObs) : ClientObs → Prop
  | .attempt _ | .returned | .emitted .connected => flagAfter false (emittedEvents past) = false
  | _ => True

/-- The steps that end a session without a report. -/
def LeavesSilently (config : ClientConfig) (c : Client) : ClientInput → Prop
  | .read .eof => c.phase.inSession = true
  | .shutdownChanged => c.phase.inSession = true
  | .read (.line line) => Panics config c line
  | i => RetriesSession c i

/-- The events that report neither a login nor the end of a session. -/
def StratumEvent.isNeutral : StratumEvent → Bool
  | .connected | .disconnected _ => false
  | _ => true

theorem flagAfter_neutral {es : List StratumEvent} (h : ∀ e ∈ es, e.isNeutral = true)
    (flag : Bool) : flagAfter flag es = flag := by
  induction es generalizing flag with
  | nil => rfl
  | cons e es ih =>
      have he : setLoggedIn flag e = flag := by
        have hneutral := h e (by simp)
        cases e with
        | connected => cases hneutral
        | disconnected reason => cases hneutral
        | _ => rfl
      rw [flagAfter, List.foldl_cons, he]
      exact ih (fun e he => h e (by simp [he])) flag

theorem isNeutral_ofJob (job : Option Job) :
    ∀ e ∈ (Handled.ofJob job).events, e.isNeutral = true := by
  unfold Handled.ofJob
  split
  · split <;> simp [Handled.events, StratumEvent.isNeutral]
  · simp [Handled.events]

theorem isNeutral_loginResult (msg : Json) :
    ∀ e ∈ (loginResult msg).2.events, e.isNeutral = true := by
  unfold loginResult
  split
  · simp [Handled.events]
  · exact isNeutral_ofJob _

theorem isNeutral_handleMsg (msg : Json) :
    ∀ e ∈ (handleMsg msg).events, e.isNeutral = true := by
  cases hh : handleMsg msg with
  | nothing => simp [Handled.events]
  | newJob job => simp [Handled.events, StratumEvent.isNeutral]
  | reply event =>
      have hreply : replyOf msg = some event := by simp [replyOf, hh]
      have hshare := isShare_of_replyOf hreply
      intro e he
      obtain rfl := List.mem_singleton.mp he
      cases e with
      | accepted => rfl
      | rejected reason => rfl
      | _ => cases hshare

/-! ## The client's part -/

/-- The reports, with those that wait to be sent, follow the sessions. -/
structure SessionsReported (c : Client) (tr : List ClientObs) : Prop where
  flag : c.phase ≠ .aborted →
    flagAfter false (emittedEvents tr ++ c.outbox) = c.phase.loggedIn
  pending : ∀ pre post, c.outbox = pre ++ .connected :: post →
    flagAfter false (emittedEvents tr ++ pre) = false
  reported : Justified ReportedBefore tr

theorem sessionsReported_start : SessionsReported .start [] where
  flag _ := rfl
  pending := fun pre post h => by simp [Client.start] at h
  reported := justified_nil

/-- Observations that neither are reports nor need one before them. -/
def ClientObs.isSilent : ClientObs → Bool
  | .attempt _ | .returned | .emitted _ => false
  | _ => true

section

variable {config : ClientConfig} {c c' : Client} {i : ClientInput} {tr os : List ClientObs}

theorem emittedEvents_silent (h : ∀ o ∈ os, o.isSilent = true) : emittedEvents os = [] := by
  rw [emittedEvents, List.filterMap_eq_nil_iff]
  intro o ho
  have hsilent := h o ho
  cases o with
  | emitted event => cases hsilent
  | _ => rfl

theorem isSilent_message (msg : Json) : ∀ o ∈ (c.message msg).2, o.isSilent = true :=
  forall_mem_message (fun _ => rfl) c rfl

theorem isSilent_loggedIn (p : LoginProfile) (msg : Json) :
    ∀ o ∈ (c.loggedIn config p msg).2, o.isSilent = true :=
  forall_mem_loggedIn (fun _ => rfl) c config p rfl

theorem SessionsReported.flag_of_outbox (h : SessionsReported c tr) (ho : c.outbox = [])
    (ha : c.phase ≠ .aborted) : flagAfter false (emittedEvents tr) = c.phase.loggedIn := by
  have hflag := h.flag ha
  rwa [ho, List.append_nil] at hflag

/-- A step that makes no report and leaves neutral events waiting. -/
theorem SessionsReported.silent (h : SessionsReported c tr) (ho : c.outbox = [])
    (ha : c.phase ≠ .aborted) (hos : ∀ o ∈ os, o.isSilent = true)
    (hneutral : ∀ e ∈ c'.outbox, e.isNeutral = true)
    (hin : c'.phase.loggedIn = c.phase.loggedIn) : SessionsReported c' (tr ++ os) where
  flag _ := by
    rw [emittedEvents_append, emittedEvents_silent hos, List.append_nil, flagAfter_append,
      flagAfter_neutral hneutral, h.flag_of_outbox ho ha, hin]
  pending := fun pre post hpost => by
    have hconnected := hneutral .connected (by simp [hpost])
    cases hconnected
  reported := h.reported.append fun pre o post hsplit => by
    have hsilent := hos o (by simp [hsplit])
    cases o with
    | attempt p => cases hsilent
    | returned => cases hsilent
    | emitted event => cases hsilent
    | _ => trivial

theorem SessionsReported.loggedIn (h : SessionsReported c tr) (ho : c.outbox = [])
    (ha : c.phase ≠ .aborted) (hin : c.phase.loggedIn = false) (p : LoginProfile) (msg : Json) :
    SessionsReported (c.loggedIn config p msg).1 (tr ++ (c.loggedIn config p msg).2) := by
  have hflag := h.flag_of_outbox ho ha
  have hneutral := isNeutral_loginResult msg
  have hsilent : ∀ o ∈ (c.loggedIn config p msg).2, o.isSilent = true := isSilent_loggedIn p msg
  have hevents : emittedEvents (tr ++ (c.loggedIn config p msg).2) = emittedEvents tr := by
    rw [emittedEvents_append, emittedEvents_silent hsilent, List.append_nil]
  have hoff : ∀ es : List StratumEvent, (∀ e ∈ es, e.isNeutral = true) →
      flagAfter false (emittedEvents tr ++ es) = false := by
    intro es hes
    rw [flagAfter_append, flagAfter_neutral hes, hflag, hin]
  constructor
  · intro _
    have hphase : (c.loggedIn config p msg).1.phase.loggedIn = true := by
      simp only [Client.loggedIn]
      split <;> rfl
    have houtbox : (c.loggedIn config p msg).1.outbox
        = (loginResult msg).2.events ++ [.connected] := rfl
    rw [hevents, hphase, houtbox, ← List.append_assoc, flagAfter_append]
    rfl
  · intro pre post hpost
    have hprefix : pre <+: (loginResult msg).2.events ++ [.connected] := ⟨_, hpost.symm⟩
    rw [hevents]
    rcases List.prefix_concat_iff.mp hprefix with rfl | hpre
    · have hlength := congrArg List.length hpost
      simp [Client.loggedIn] at hlength
    · exact hoff pre fun e he => hneutral e (hpre.subset he)
  · exact h.reported.append fun pre o post hsplit => by
      have ho := hsilent o (by simp [hsplit])
      cases o with
      | attempt p => cases ho
      | returned => cases ho
      | emitted event => cases ho
      | _ => trivial

/-- An observation that needs a report before it, made outside of a session. -/
theorem SessionsReported.outside (h : SessionsReported c tr) (ho : c.outbox = [])
    (ha : c.phase ≠ .aborted) (hin : c.phase.loggedIn = false) {o : ClientObs}
    (hevent : o.event = none) (ho' : c'.outbox = []) (hin' : c'.phase.loggedIn = false) :
    SessionsReported c' (tr ++ [o]) where
  flag _ := by
    have hnone : emittedEvents [o] = [] := by simp [emittedEvents, hevent]
    rw [emittedEvents_append, hnone, ho', hin', List.append_nil, List.append_nil,
      h.flag_of_outbox ho ha, hin]
  pending := fun pre post hpost => by simp [ho'] at hpost
  reported := by
    have hflag := (h.flag_of_outbox ho ha).trans hin
    refine (justified_snoc tr o).mpr ⟨h.reported, ?_⟩
    cases o with
    | attempt p => exact hflag
    | returned => exact hflag
    | emitted event => cases hevent
    | _ => trivial

theorem SessionsReported.disconnected (h : SessionsReported c tr) (reason : String)
    (ho : c'.outbox = [.disconnected reason]) (hin : c'.phase.loggedIn = false) :
    SessionsReported c' (tr ++ []) where
  flag _ := by
    rw [List.append_nil, ho, hin, flagAfter_append]
    rfl
  pending := fun pre post hpost => by
    have hmem : StratumEvent.connected ∈ c'.outbox := by simp [hpost]
    simp [ho] at hmem
  reported := by
    rw [List.append_nil]
    exact h.reported

theorem SessionsReported.sent (h : SessionsReported c tr) {event : StratumEvent}
    {rest : List StratumEvent} (ho : c.outbox = event :: rest) :
    SessionsReported { c with outbox := rest } (tr ++ [.emitted event]) where
  flag ha := by
    have hflag := h.flag ha
    rw [ho, List.append_cons] at hflag
    simpa [emittedEvents, ClientObs.event] using hflag
  pending := fun pre post hpost => by
    have hrest : rest = pre ++ .connected :: post := hpost
    have hpending := h.pending (event :: pre) post (by rw [ho, hrest]; rfl)
    simpa [emittedEvents, ClientObs.event] using hpending
  reported := by
    refine (justified_snoc tr _).mpr ⟨h.reported, ?_⟩
    cases event with
    | connected =>
        have hpending := h.pending [] rest ho
        rwa [List.append_nil] at hpending
    | _ => trivial

theorem Fails.leavesSilently_iff {p : LoginProfile} {e : Error} (h : Fails config c p i e)
    (hin : c.phase.loggedIn = true) : LeavesSilently config c i ↔ RetriesSession c i := by
  rcases h.loggedIn_cases hin with ⟨io, rfl, _, _⟩ | ⟨text, rfl, _⟩
  · exact Iff.rfl
  · exact Iff.rfl

theorem sessionsReported_step (h : SessionsReported c tr) (hgood : ¬ LeavesSilently config c i)
    (hs : clientStep config c i = some (c', os)) : SessionsReported c' (tr ++ os) := by
  have ha : c.outbox = [] → c.phase ≠ .aborted := fun ho => ne_aborted_of_step ho hs
  cases clientMoves_of_step hs with
  | stop =>
      rw [List.append_nil]
      exact ⟨h.flag, h.pending, h.reported⟩
  | watch _ =>
      rw [List.append_nil]
      exact ⟨h.flag, h.pending, h.reported⟩
  | send ho => exact h.sent ho
  | attempt ho hp _ => exact h.outside ho (ha ho) (by rw [hp]; rfl) rfl ho rfl
  | leave ho hp _ => exact h.outside ho (ha ho) (by rw [hp]; rfl) rfl ho rfl
  | opened ho hp =>
      exact h.silent ho (ha ho) (by simp [ClientObs.isSilent]) (by simp [ho]) (by rw [hp]; rfl)
  | loginSent ho hp => exact h.silent ho (ha ho) (by simp) (by simp [ho]) (by rw [hp]; rfl)
  | loggedIn ho hp _ _ _ => exact h.loggedIn ho (ha ho) (by rw [hp]; rfl) _ _
  | earlyMessage ho _ _ _ =>
      exact h.silent ho (ha ho) (isSilent_message _) (isNeutral_handleMsg _) rfl
  | message ho _ _ _ =>
      exact h.silent ho (ha ho) (isSilent_message _) (isNeutral_handleMsg _) rfl
  | skip ho _ _ => exact h.silent ho (ha ho) (by simp) (by simp [ho]) rfl
  | panic _ hbad => exact absurd hbad hgood
  | overflow ho _ =>
      rw [List.append_nil]
      exact ⟨fun hp => absurd rfl hp, fun pre post hpost => by simp [ho] at hpost, h.reported⟩
  | eof _ hp => exact absurd hp hgood
  | shutdown _ hp _ => exact absurd hp hgood
  | submit ho hp =>
      exact h.silent ho (ha ho) (by simp [ClientObs.isSilent]) (by simp [ho]) (by rw [hp]; rfl)
  | submitted ho hp => exact h.silent ho (ha ho) (by simp) (by simp [ho]) (by rw [hp]; rfl)
  | @failed p e _ ho hf =>
      by_cases hretry : (∃ next, p.next = some next) ∧ isLoginRetryable e = true
      · -- a retry is of a login, since the step is good
        obtain ⟨⟨next, hn⟩, hr⟩ := hretry
        have hin : c.phase.loggedIn = false := by
          by_contra hin
          rw [Bool.not_eq_false] at hin
          exact hgood ((hf.leavesSilently_iff hin).mpr
            ((hf.retriesSession_iff hin).mpr ⟨⟨next, hn⟩, hr⟩))
        rw [fail_of_retried hn hr]
        exact h.outside ho (ha ho) hin rfl ho rfl
      · rw [fail_of_not_retried hretry]
        exact h.disconnected _ rfl rfl
  | wake ho hp => exact h.silent ho (ha ho) (by simp) (by simp [ho]) (by rw [hp]; rfl)

/-- A session that ends without a report leaves the flag behind. -/
theorem flag_of_leavesSilently (h : SessionsReported c tr) (hbad : LeavesSilently config c i)
    (hs : clientStep config c i = some (c', os)) :
    flagAfter false (emittedEvents (tr ++ os) ++ c'.outbox) = true ∧
      c'.phase.loggedIn = false ∧ c'.phase ≠ .aborted := by
  have hflag : c.outbox = [] → c.phase.loggedIn = true → c'.outbox = c.outbox →
      emittedEvents os = [] → flagAfter false (emittedEvents (tr ++ os) ++ c'.outbox) = true := by
    intro ho hin ho' hos
    rw [emittedEvents_append, hos, ho', ho, List.append_nil, List.append_nil,
      h.flag_of_outbox ho (ne_aborted_of_step ho hs), hin]
  by_cases hretry : RetriesSession c i
  · obtain ⟨hin, ho, next, _, rfl, rfl⟩ := hretry.step hs
    exact ⟨hflag ho hin rfl rfl, rfl, by simp⟩
  cases clientMoves_of_step hs with
  | eof ho hp =>
      exact ⟨hflag ho (Phase.loggedIn_of_inSession hp) rfl rfl, rfl, by simp [Client.finish]⟩
  | shutdown ho hp _ =>
      exact ⟨hflag ho (Phase.loggedIn_of_inSession hp) rfl rfl, rfl, by simp [Client.finish]⟩
  | panic ho hpanic =>
      obtain ⟨p, sid, hp⟩ := hpanic.mining
      exact ⟨hflag ho (by rw [hp]; rfl) rfl rfl, rfl, by simp⟩
  | overflow _ hdeep => exact absurd hdeep (Panics.not_overflows hbad)
  | loggedIn _ hp _ _ _ =>
      obtain ⟨⟨p, sid, hp'⟩, -, -, -⟩ := hbad
      rw [hp] at hp'
      cases hp'
  | earlyMessage _ hp _ _ =>
      obtain ⟨⟨p, sid, hp'⟩, -, -, -⟩ := hbad
      rw [hp] at hp'
      cases hp'
  | message _ _ _ hl =>
      obtain ⟨e, he⟩ := Panics.refused hbad
      rw [hl] at he
      cases he
  | skip _ _ hskip => exact absurd (Or.inl hbad) hskip.not_leavesLoop
  | failed _ hf =>
      cases hf with
      | loginEof hp => simp [LeavesSilently, hp, Phase.inSession] at hbad
      | loginParse hp hl =>
          exact absurd (Or.inl hbad) (Fails.loginParse hp hl).not_leavesLoop
      | loginError hp hl hid he =>
          exact absurd (Or.inl hbad) (Fails.loginError hp hl hid he).not_leavesLoop
      | _ => exact absurd hbad hretry
  | _ => exact absurd hbad hretry

end

end LiteXmr.Stratum

namespace LiteXmr.Pool

open Lts Stratum

/-! ## The controller's part -/

/-- The controller after the events on their way. -/
def PoolState.processed (s : PoolState) : Controller :=
  (s.events ++ s.client.outbox).foldl Controller.handleEvent s.controller

/-- Every login so far has been followed by the report that its session has
ended, when something needed it, and the flag, as long as there is a process to have
one, will be set only while a session is open. -/
structure SessionReporting (s : PoolState) (tr : List PoolObs) : Prop where
  reported : Justified ReportedBefore (clientTrace tr)
  flag : s.client.phase ≠ .aborted → s.processed.loggedIn = true →
    s.client.phase.loggedIn = true

/-- The steps that end a session without a report. -/
def EndsUnreported (config : ClientConfig) (s : PoolState) : PoolInput → Prop
  | .client i => LeavesSilently config s.client i
  | _ => False

/-- The flag and the event queue add up to the events sent. -/
def FlagKnown (s : PoolState) (tr : List PoolObs) : Prop :=
  flagAfter s.controller.loggedIn s.events = flagAfter false (emittedEvents (clientTrace tr))

section

variable {cc : ClientConfig} {mc : MinerConfig} {s s' : PoolState} {i : PoolInput}
  {tr os : List PoolObs}

theorem loggedIn_foldl_handleEvent (events : List StratumEvent) (controller : Controller) :
    (events.foldl Controller.handleEvent controller).loggedIn
      = flagAfter controller.loggedIn events := by
  induction events generalizing controller with
  | nil => rfl
  | cons event rest ih =>
      have hevent : (controller.handleEvent event).loggedIn
          = setLoggedIn controller.loggedIn event := by
        cases event <;> rfl
      rw [List.foldl_cons, ih, hevent]
      rfl

theorem flagKnown_start : FlagKnown (.start cc mc) [] := rfl

theorem FlagKnown.processed (h : FlagKnown s tr) :
    s.processed.loggedIn
      = flagAfter false (emittedEvents (clientTrace tr) ++ s.client.outbox) := by
  rw [PoolState.processed, loggedIn_foldl_handleEvent, flagAfter_append, h, flagAfter_append]

theorem emittedEvents_of_step {config : ClientConfig} {c c' : Client} {j : ClientInput}
    {cos : List ClientObs} (hj : isExchange j = false)
    (hc : clientStep config c j = some (c', cos)) : emittedEvents cos = [] := by
  rw [emittedEvents, List.filterMap_eq_nil_iff]
  intro o ho
  cases o with
  | emitted event => exact absurd (emitted_of_step hc ho) (ne_sendEvent_of_isExchange hj)
  | _ => rfl

theorem FlagKnown.frame (h : FlagKnown s tr)
    (hflag : s'.controller.loggedIn = s.controller.loggedIn)
    (hevents : s'.events = s.events) (hos : emittedEvents (clientTrace os) = []) :
    FlagKnown s' (tr ++ os) := by
  rw [FlagKnown, hflag, hevents, clientTrace_append, emittedEvents_append, hos, List.append_nil]
  exact h

theorem flagKnown_step (h : FlagKnown s tr) (hs : poolStep cc mc s i = some (s', os)) :
    FlagKnown s' (tr ++ os) := by
  cases poolMoves_of_step hs with
  | client hj _ hc _ => exact h.frame rfl rfl (by simp [emittedEvents_of_step hj hc])
  | publish hj _ hc _ _ => exact h.frame rfl rfl (by simp [emittedEvents_of_step hj hc])
  | miner _ _ _ => exact h.frame rfl rfl (by simp [emittedEvents])
  | @sendEvent event rest _ _ _ =>
      have hemitted : emittedEvents (clientTrace [.client (.emitted event)]) = [event] := rfl
      rw [FlagKnown, clientTrace_append, emittedEvents_append, hemitted, flagAfter_append,
        flagAfter_append, h]
  | recvSubmit _ _ _ _ => exact h.frame rfl rfl rfl
  | @recvEvent event rest _ hq =>
      rw [FlagKnown, List.append_nil, ← h, hq]
      cases event <;> rfl
  | recvShare _ _ => exact h.frame rfl rfl rfl
  | shutdown _ => exact h.frame rfl rfl rfl
  | submitLost _ _ => exact h.frame rfl rfl rfl
  | submitSent _ _ => exact h.frame rfl rfl rfl

/-- An exchange over a queue does not end a session. -/
theorem not_leavesSilently_of_isExchange {config : ClientConfig} {c : Client} {j : ClientInput}
    (hj : isExchange j = true) : ¬ LeavesSilently config c j := by
  cases j with
  | sendEvent => exact id
  | recvSubmit submission => exact id
  | _ => cases hj

theorem sessionsReported_pool_step (h : SessionsReported s.client (clientTrace tr))
    (hgood : ¬ EndsUnreported cc s i) (hs : poolStep cc mc s i = some (s', os)) :
    SessionsReported s'.client (clientTrace (tr ++ os)) := by
  rw [clientTrace_append]
  rcases clientStep_of_poolStep hs with ⟨_, hclient, hos⟩ | ⟨j, hj, hc⟩
  · rw [hclient, hos, List.append_nil]
    exact h
  · refine sessionsReported_step h ?_ hc
    rcases hj with rfl | ⟨_, hexchange⟩
    · exact hgood
    · exact not_leavesSilently_of_isExchange hexchange

theorem not_sessionReporting_of_endsUnreported (h : SessionsReported s.client (clientTrace tr))
    (hflag : FlagKnown s tr) (hbad : EndsUnreported cc s i)
    (hs : poolStep cc mc s i = some (s', os)) : ¬ SessionReporting s' (tr ++ os) := by
  intro hreporting
  match i, hbad with
  | .client j, hbad =>
      rcases clientStep_of_poolStep hs with ⟨hne, _, _⟩ | ⟨k, hk, hc⟩
      · exact hne j rfl
      · obtain rfl : k = j := by
          rcases hk with heq | ⟨hne, _⟩
          · cases heq
            rfl
          · exact absurd rfl (hne j)
        obtain ⟨hset, hclosed, halive⟩ := flag_of_leavesSilently h hbad hc
        have hprocessed := (flagKnown_step hflag hs).processed
        rw [clientTrace_append, hset] at hprocessed
        rw [hreporting.flag halive hprocessed] at hclosed
        cases hclosed

end

/-- At every point of a run every login has been followed by the report of its
session's end before the next login was reported, the next attempt begun or
`run` returned, and the controller's flag is set only while a session is open,
exactly when no step of the run ends a session without a report. -/
theorem session_reporting_iff (cc : ClientConfig) (mc : MinerConfig) {is : List PoolInput}
    {s : PoolState} {tr : List PoolObs}
    (h : Run (poolStep cc mc) (fun _ _ => True) (.start cc mc) is s tr) :
    (∀ js t tr', js <+: is →
        Run (poolStep cc mc) (fun _ _ => True) (.start cc mc) js t tr' →
          SessionReporting t tr') ↔
      Run (poolStep cc mc) (fun s i => ¬ EndsUnreported cc s i) (.start cc mc) is s tr := by
  rw [h.always_iff (I := fun s tr => SessionsReported s.client (clientTrace tr) ∧ FlagKnown s tr)
    (P := SessionReporting) (B := EndsUnreported cc) ⟨sessionsReported_start, flagKnown_start⟩
    (fun hi => ⟨hi.1.reported, fun halive hset => by
      rw [← hi.1.flag halive, ← hi.2.processed, hset]⟩)
    (fun hi _ hgood hs => ⟨sessionsReported_pool_step hi.1 hgood hs, flagKnown_step hi.2 hs⟩)
    (fun hi _ hbad hs => not_sessionReporting_of_endsUnreported hi.1 hi.2 hbad hs)]
  constructor
  · exact fun hrun => hrun.mono fun _ _ hok => hok.2
  · exact fun hrun => hrun.mono fun _ _ hok => ⟨trivial, hok⟩

/-! ### A connection that is reset and one that is closed -/

/-- The session ends with an error, and the next attempt begins. -/
def resetInputs : List PoolInput :=
  loginInputs ++ outageInputs ++ [.client .check]

theorem toList_jobReplyLine : jobReplyLine.toList
    = "\x7b\"id\":1,\"result\":\x7b\"id\":\"s\",\"job\":\x7b\"job_id\":\"j\",\"blob\":\"".toList
      ++ Base16.encodeChars (List.replicate 43 0)
      ++ "\",\"target\":\"ffffffff\"\x7d\x7d\x7d".toList := by
  have hblob : zeroBlobJob.blob.toList = Base16.encodeChars (List.replicate 43 0) :=
    String.toList_ofList ..
  delta jobReplyLine
  simp only [String.toList_append, hblob]

/-- The line can be cut after 120 bytes. -/
theorem cutsCharacter_jobReplyLine : Client.cutsCharacter (Str.trim jobReplyLine) = false := by
  rw [Client.cutsCharacter, Str.isCharBoundary, Str.len, Str.trim, String.toList_ofList,
    toList_jobReplyLine]
  decide +kernel

theorem session_reporting_reset :
    ∃ s tr, Run (poolStep poolConfig poolMiner) (fun _ _ => True)
        (.start poolConfig poolMiner) resetInputs s tr ∧
      s.client.phase = .connecting .lite ∧
      ∀ js t tr', js <+: resetInputs →
        Run (poolStep poolConfig poolMiner) (fun _ _ => True)
          (.start poolConfig poolMiner) js t tr' → SessionReporting t tr' := by
  have hpanics : ∀ c, ¬ Panics poolConfig c jobReplyLine := fun c hpanic => by
    have hcut := hpanic.cuts
    rw [cutsCharacter_jobReplyLine] at hcut
    cases hcut
  have hnoisy : isNoisyTlsClose "connection reset" = false := by decide +kernel
  have htext : isRetryText "connection reset" = false := by decide +kernel
  have hgood : ∀ (s : PoolState), ∀ i ∈ resetInputs, ¬ EndsUnreported poolConfig s i := by
    intro s i hi
    simp only [resetInputs, loginInputs, outageInputs, List.cons_append, List.nil_append,
      List.mem_cons, List.not_mem_nil, or_false] at hi
    rcases hi with rfl | rfl | rfl | rfl | rfl | rfl | rfl | rfl | rfl | rfl | rfl | rfl | rfl
      <;> simp [EndsUnreported, LeavesSilently, hpanics, RetriesSession, hnoisy, htext]
  have hexec : (exec (poolStep poolConfig poolMiner) (.start poolConfig poolMiner)
      resetInputs).any (fun r => decide (r.1.client.phase = .connecting .lite)) = true := by
    decide +kernel
  obtain ⟨s, tr, hrun, hphase⟩ := run_of_exec_test
    (p := fun (s : PoolState) (_ : List PoolObs) => decide (s.client.phase = .connecting .lite))
    hexec hgood
  exact ⟨s, tr, hrun.any, of_decide_eq_true hphase,
    (session_reporting_iff poolConfig poolMiner hrun.any).mpr hrun⟩

/-- The pool closes the connection of a session. -/
def closedInputs : List PoolInput := loginInputs ++ [.client (.read .eof)]

/-- `run` has returned, no event is on its way, and the flag is still set. -/
theorem flag_outlives_session :
    ∃ s tr, Run (poolStep poolConfig poolMiner) (fun _ _ => True)
        (.start poolConfig poolMiner) closedInputs s tr ∧
      s.client.phase = .returned ∧ s.processed.loggedIn = true ∧ ¬ SessionReporting s tr := by
  have hexec : (exec (poolStep poolConfig poolMiner) (.start poolConfig poolMiner)
      closedInputs).any (fun r => decide (r.1.client.phase = .returned) &&
        r.1.processed.loggedIn) = true := by decide +kernel
  obtain ⟨s, tr, hrun, hends⟩ := anyRun_of_exec_test
    (p := fun (s : PoolState) (_ : List PoolObs) =>
      decide (s.client.phase = .returned) && s.processed.loggedIn) hexec
  rw [Bool.and_eq_true, decide_eq_true_eq] at hends
  obtain ⟨hphase, hset⟩ := hends
  refine ⟨s, tr, hrun, hphase, hset, fun hreporting => ?_⟩
  have hopen := hreporting.flag (by rw [hphase]; simp) hset
  rw [hphase] at hopen
  cases hopen

end LiteXmr.Pool
