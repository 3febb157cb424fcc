/-
LiteXmr.Stratum.ClientSessionTheorems — how a logged-in session ends.

An error of `mining_loop` or `keepalive_loop` takes the way of every other
error of an attempt, through the test whether the next login profile is to be
tried. The test looks at the text of the error, so an error of a session whose
text is one of a failed login is taken for one (`RetriesSession`).

`retries_only_logins_iff` says that a run tries another profile only after a
failed login, and reports every error of a session, exactly when it has no such
step; `retry_after_accepted_login` is a run that has one.
-/
import LiteXmr.Stratum.ClientEventTheorems

namespace LiteXmr.Stratum

open Lts

/-! ## Sessions and the texts of their errors -/

/-- The login of the attempt has been accepted. -/
def Phase.loggedIn : Phase → Bool
  | .mining _ _ | .writing _ _ | .keepalive _ => true
  | _ => false

/-- There is a profile after that of the attempt. -/
def Client.HasNext (c : Client) : Prop :=
  ∃ p next, c.phase.profile = some p ∧ p.next = some next

/-- The texts of network errors that stand for a failed login. -/
def isRetryText (text : String) : Bool :=
  Str.contains text "unexpected EOF" || Str.contains text "TLS stream closed" ||
    Str.contains text "handshake failure"

/-- An error of a logged-in session is taken for one of its login. -/
def RetriesSession (c : Client) : ClientInput → Prop
  | .read (.error e) =>
      c.phase.inSession = true ∧ c.HasNext ∧
        (isNoisyTlsClose e.text = true ∨ isRetryText e.text = true)
  | .submitWritten (.error text) => c.HasNext ∧ isRetryText text = true
  | _ => False

theorem isLoginRetryable_network (text : String) :
    isLoginRetryable (.network text) = isRetryText text := rfl

theorem isLoginRetryable_networkReadError (e : IoError) :
    isLoginRetryable (networkReadError e) = true ↔
      isNoisyTlsClose e.text = true ∨ isRetryText e.text = true := by
  have hclosed : isRetryText "TLS stream closed by pool" = true := by decide +kernel
  unfold networkReadError
  split
  · next h => simp [isLoginRetryable_network, hclosed, h]
  · next h => simp [isLoginRetryable_network, h]

section

variable {config : ClientConfig} {c c' : Client} {i : ClientInput} {os : List ClientObs}

theorem hasNext_iff {p : LoginProfile} (hp : c.phase.profile = some p) :
    c.HasNext ↔ ∃ next, p.next = some next := by
  simp [Client.HasNext, hp]

theorem Fails.loggedIn_cases {p : LoginProfile} {e : Error} (h : Fails config c p i e)
    (hin : c.phase.loggedIn = true) :
    (∃ io, i = .read (.error io) ∧ e = networkReadError io ∧ c.phase.inSession = true) ∨
      ∃ text, i = .submitWritten (.error text) ∧ e = .network text := by
  cases h with
  | read hp _ => exact Or.inl ⟨_, rfl, rfl, hp⟩
  | submitWrite _ => exact Or.inr ⟨_, rfl, rfl⟩
  | connect hp => simp [hp, Phase.loggedIn] at hin
  | loginWrite hp => simp [hp, Phase.loggedIn] at hin
  | loginEof hp => simp [hp, Phase.loggedIn] at hin
  | loginRead hp => simp [hp, Phase.loggedIn] at hin
  | loginParse hp _ => simp [hp, Phase.loggedIn] at hin
  | loginError hp _ _ _ => simp [hp, Phase.loggedIn] at hin

/-- An error of a session is retried exactly when it is one of
`RetriesSession`. -/
theorem Fails.retriesSession_iff {p : LoginProfile} {e : Error} (h : Fails config c p i e)
    (hin : c.phase.loggedIn = true) :
    RetriesSession c i ↔ (∃ next, p.next = some next) ∧ isLoginRetryable e = true := by
  have hnext := hasNext_iff h.profile
  rcases h.loggedIn_cases hin with ⟨io, rfl, rfl, hsession⟩ | ⟨text, rfl, rfl⟩
  · simp [RetriesSession, hsession, hnext, isLoginRetryable_networkReadError]
  · simp [RetriesSession, hnext, isLoginRetryable_network]

theorem Fails.outbox {p : LoginProfile} {e : Error} (h : Fails config c p i e)
    (hs : clientStep config c i = some (c', os)) : c.outbox = [] := by
  cases clientMoves_of_step hs with
  | stop => cases h
  | watch _ => cases h
  | send _ => cases h
  | _ => assumption

/-- An error determines the step. -/
theorem Fails.step_eq {p : LoginProfile} {e : Error} (h : Fails config c p i e)
    (hs : clientStep config c i = some (c', os)) : (c', os) = c.fail p e := by
  have ho := h.outbox hs
  have hact : ∀ {r}, clientStep config c i = some r → (c', os) = r := fun hr =>
    Option.some.inj (hs.symm.trans hr)
  cases h with
  | connect hp => exact hact (by simp [clientStep, ho, hp, Client.act])
  | loginWrite hp => exact hact (by simp [clientStep, ho, hp, Client.act])
  | loginEof hp => exact hact (by simp [clientStep, ho, hp, Client.act])
  | loginRead hp => exact hact (by simp [clientStep, ho, hp, Client.act])
  | loginParse hp hl => exact hact (by simp [clientStep, ho, hp, Client.act, Client.loginLine, hl])
  | loginError hp hl hid he =>
      exact hact (by simp [clientStep, ho, hp, Client.act, Client.loginLine, hl, hid, he])
  | submitWrite hp => exact hact (by simp [clientStep, ho, hp, Client.act])
  | read hin hprofile =>
      cases hp : c.phase with
      | mining q sid =>
          obtain rfl : q = p := by simpa [hp, Phase.profile] using hprofile
          exact hact (by simp [clientStep, ho, hp, Client.act])
      | keepalive q =>
          obtain rfl : q = p := by simpa [hp, Phase.profile] using hprofile
          exact hact (by simp [clientStep, ho, hp, Client.act])
      | _ => simp [hp, Phase.inSession] at hin

theorem fail_of_retried {p next : LoginProfile} {e : Error} (hn : p.next = some next)
    (hr : isLoginRetryable e = true) :
    c.fail p e = ({ c with phase := .connecting next }, [.attempt next]) := by
  simp [Client.fail, hn, hr]

theorem fail_of_not_retried {p : LoginProfile} {e : Error}
    (h : ¬ ((∃ next, p.next = some next) ∧ isLoginRetryable e = true)) :
    c.fail p e = ({ c with phase := .backoff, outbox := [.disconnected e.toString] }, []) := by
  rcases c.fail_cases p e with ⟨next, hn, hr, _⟩ | hf
  · exact absurd ⟨⟨next, hn⟩, hr⟩ h
  · exact hf

theorem Phase.loggedIn_of_inSession {phase : Phase} (h : phase.inSession = true) :
    phase.loggedIn = true := by
  cases phase <;> first | rfl | cases h

/-- A step of `RetriesSession` is an error of a session. -/
theorem RetriesSession.fails (h : RetriesSession c i)
    (hs : clientStep config c i = some (c', os)) :
    c.phase.loggedIn = true ∧ ∃ p e, Fails config c p i e := by
  match i, h with
  | .read (.error e), hretry =>
      have hin := Phase.loggedIn_of_inSession hretry.1
      cases clientMoves_of_step hs with
      | failed _ hf => exact ⟨hin, _, _, hf⟩
  | .submitWritten (.error text), _ =>
      cases clientMoves_of_step hs with
      | failed _ hf =>
          cases hf with
          | submitWrite hp => exact ⟨by rw [hp]; rfl, _, _, .submitWrite hp⟩

theorem RetriesSession.step (h : RetriesSession c i)
    (hs : clientStep config c i = some (c', os)) :
    c.phase.loggedIn = true ∧ c.outbox = [] ∧ ∃ next, next ≠ .lite ∧
      c' = { c with phase := .connecting next } ∧ os = [.attempt next] := by
  obtain ⟨hin, p, e, hf⟩ := h.fails hs
  obtain ⟨⟨next, hn⟩, hr⟩ := (hf.retriesSession_iff hin).mp h
  have hlite : next ≠ .lite := by
    rintro rfl
    cases p <;> cases hn
  have hstep := hf.step_eq hs
  rw [fail_of_retried hn hr] at hstep
  cases hstep
  exact ⟨hin, hf.outbox hs, next, hlite, rfl, rfl⟩

end

/-! ## Attempts -/

/-- Whether the login of the latest attempt has been accepted. -/
def loginAccepted (tr : List ClientObs) : Bool :=
  tr.foldl (fun accepted o =>
    match o with
    | .attempt _ => false
    | .loginReply _ => true
    | _ => accepted) false

/-- An attempt is the first one of its session, or the login of the one before
it has failed. -/
def RetriesLogin (past : List ClientObs) : ClientObs → Prop
  | .attempt p => p = .lite ∨ loginAccepted past = false
  | _ => True

/-- An error of a session is returned to `run`, which reports it. -/
def ReturnsError (config : ClientConfig) (c : Client) (i : ClientInput) : Prop :=
  ∀ p e c' os, c.phase.loggedIn = true → Fails config c p i e →
    clientStep config c i = some (c', os) →
      c'.phase = .backoff ∧ c'.outbox = [.disconnected e.toString]

/-- In an attempt the trace tells whether its login has been accepted. -/
def AttemptKnown (c : Client) (tr : List ClientObs) : Prop :=
  c.phase.profile ≠ none → loginAccepted tr = c.phase.loggedIn

section

variable {config : ClientConfig} {c c' : Client} {i : ClientInput} {tr os : List ClientObs}

/-- Observations that leave it open whether a login is accepted. -/
def ClientObs.isQuiet : ClientObs → Bool
  | .attempt _ | .loginReply _ => false
  | _ => true

theorem loginAccepted_append_quiet (h : ∀ o ∈ os, o.isQuiet = true) :
    loginAccepted (tr ++ os) = loginAccepted tr := by
  induction os generalizing tr with
  | nil => rw [List.append_nil]
  | cons o os ih =>
      have ho : loginAccepted (tr ++ [o]) = loginAccepted tr := by
        have hquiet := h o (by simp)
        cases o with
        | attempt p => cases hquiet
        | loginReply msg => cases hquiet
        | _ => simp [loginAccepted]
      rw [List.append_cons, ih fun o ho => h o (by simp [ho]), ho]

theorem isQuiet_published (h : Handled) : ∀ o ∈ h.published, o.isQuiet = true :=
  forall_mem_published (fun _ => rfl) h

theorem isQuiet_message (msg : Json) : ∀ o ∈ (c.message msg).2, o.isQuiet = true :=
  forall_mem_message (fun _ => rfl) c rfl

theorem attemptKnown_start : AttemptKnown .start [] := fun h => absurd rfl h

theorem AttemptKnown.quiet (h : AttemptKnown c tr) (hos : ∀ o ∈ os, o.isQuiet = true)
    (hprofile : c.phase.profile ≠ none) (hin : c'.phase.loggedIn = c.phase.loggedIn) :
    AttemptKnown c' (tr ++ os) := by
  intro _
  rw [loginAccepted_append_quiet hos, h hprofile, hin]

theorem attemptKnown_step (h : AttemptKnown c tr) (hs : clientStep config c i = some (c', os)) :
    AttemptKnown c' (tr ++ os) := by
  have hkeep : c'.phase = c.phase → (∀ o ∈ os, o.isQuiet = true) → AttemptKnown c' (tr ++ os) := by
    intro hp hos hprofile
    rw [hp] at hprofile ⊢
    rw [loginAccepted_append_quiet hos]
    exact h hprofile
  cases clientMoves_of_step hs with
  | stop => exact hkeep rfl (by simp)
  | watch _ => exact hkeep rfl (by simp)
  | send _ => exact hkeep rfl (by simp [ClientObs.isQuiet])
  | attempt _ _ _ => exact fun _ => by simp [loginAccepted, Phase.loggedIn]
  | opened _ hp =>
      exact h.quiet (by simp [ClientObs.isQuiet]) (by simp [hp, Phase.profile])
        (by simp [hp, Phase.loggedIn])
  | loginSent _ hp =>
      exact h.quiet (by simp) (by simp [hp, Phase.profile]) (by simp [hp, Phase.loggedIn])
  | @loggedIn p id line msg _ hp _ _ _ =>
      intro _
      have hreply : loginAccepted (tr ++ [.loginReply msg]) = true := by simp [loginAccepted]
      have hphase : (c.loggedIn config p msg).1.phase.loggedIn = true := by
        simp only [Client.loggedIn]
        split <;> rfl
      rw [hphase, Client.loggedIn, List.append_cons,
        loginAccepted_append_quiet (isQuiet_published _), hreply]
  | earlyMessage _ hp _ _ => exact hkeep rfl (isQuiet_message _)
  | message _ _ _ _ => exact hkeep rfl (isQuiet_message _)
  | skip _ _ _ => exact hkeep rfl (by simp)
  | submit _ hp =>
      exact h.quiet (by simp [ClientObs.isQuiet]) (by simp [hp, Phase.profile])
        (by simp [hp, Phase.loggedIn])
  | submitted _ hp =>
      exact h.quiet (by simp) (by simp [hp, Phase.profile]) (by simp [hp, Phase.loggedIn])
  | @failed p e _ _ _ =>
      rcases c.fail_cases p e with ⟨next, _, _, hf⟩ | hf
      · rw [hf]
        exact fun _ => by simp [loginAccepted, Phase.loggedIn]
      · rw [hf]
        exact fun hprofile => absurd rfl hprofile
  | _ => exact fun hprofile => absurd rfl hprofile

/-- The attempts a step begins. -/
theorem attempt_of_step {p : LoginProfile} (hs : clientStep config c i = some (c', os))
    (hmem : .attempt p ∈ os) :
    os = [.attempt p] ∧
      (p = .lite ∨ RetriesSession c i ∨ c.phase.profile ≠ none ∧ c.phase.loggedIn = false) := by
  have hquiet : (∀ o ∈ os, o.isQuiet = true) → False := fun h => by
    have := h _ hmem
    cases this
  cases clientMoves_of_step hs with
  | attempt _ _ _ =>
      obtain rfl : p = .lite := by simpa using hmem
      exact ⟨rfl, Or.inl rfl⟩
  | @failed q e _ _ hf =>
      rcases c.fail_cases q e with ⟨next, hn, hr, heq⟩ | heq
      · rw [heq] at hmem ⊢
        obtain rfl : p = next := by simpa using hmem
        refine ⟨rfl, Or.inr ?_⟩
        cases hin : c.phase.loggedIn with
        | true => exact Or.inl ((hf.retriesSession_iff hin).mpr ⟨⟨p, hn⟩, hr⟩)
        | false => exact Or.inr ⟨by simp [hf.profile], rfl⟩
      · rw [heq] at hmem
        cases hmem
  | loggedIn _ _ _ _ _ =>
      rcases List.mem_cons.mp hmem with hmem | hmem
      · cases hmem
      · have := isQuiet_published _ _ hmem
        cases this
  | earlyMessage _ _ _ _ => exact (hquiet (isQuiet_message _)).elim
  | message _ _ _ _ => exact (hquiet (isQuiet_message _)).elim
  | _ => simp [Client.finish] at hmem

theorem retriesLogin_step (h : AttemptKnown c tr) (hs : clientStep config c i = some (c', os)) :
    Justified RetriesLogin (tr ++ os) ↔ Justified RetriesLogin tr ∧ ¬ RetriesSession c i := by
  by_cases hretry : RetriesSession c i
  · obtain ⟨hin, _, next, hlite, rfl, rfl⟩ := hretry.step hs
    refine iff_of_false (fun hjust => ?_) fun hboth => hboth.2 hretry
    have hprofile : c.phase.profile ≠ none := by
      intro hnone
      cases hp : c.phase <;> simp [hp, Phase.profile, Phase.loggedIn] at hnone hin
    rcases (justified_snoc tr _).mp hjust |>.2 with hp | hfalse
    · exact hlite hp
    · rw [h hprofile, hin] at hfalse
      cases hfalse
  · refine ⟨fun hjust => ⟨hjust.of_append, hretry⟩, fun hboth => hboth.1.append ?_⟩
    intro pre o post hos
    cases o with
    | attempt p =>
        obtain ⟨honly, hcases⟩ := attempt_of_step hs (p := p) (by simp [hos])
        obtain rfl : pre = [] := by
          rw [honly] at hos
          cases pre with
          | nil => rfl
          | cons o pre => simp at hos
        rw [List.append_nil]
        rcases hcases with rfl | hbad | ⟨hprofile, hin⟩
        · exact Or.inl rfl
        · exact absurd hbad hretry
        · exact Or.inr (by rw [h hprofile, hin])
    | _ => trivial

theorem returnsError_iff (hs : clientStep config c i = some (c', os)) :
    ReturnsError config c i ↔ ¬ RetriesSession c i := by
  constructor
  · intro hreturns hretry
    obtain ⟨hin, p, e, hf⟩ := hretry.fails hs
    obtain ⟨_, _, next, _, rfl, _⟩ := hretry.step hs
    have hbackoff := (hreturns p e _ os hin hf hs).1
    cases hbackoff
  · intro hretry p e c₁ os₁ hin hf hs₁
    have hfail := hf.step_eq hs₁
    rw [fail_of_not_retried fun hr => hretry ((hf.retriesSession_iff hin).mpr hr)] at hfail
    cases hfail
    exact ⟨rfl, rfl⟩

end

/-- A run tries another login profile only after the login of the attempt
before has failed, and reports every error of a session, exactly when no step
of it is an error of a session with the text of a failed login while there is
another profile. -/
theorem retries_only_logins_iff (config : ClientConfig) {is : List ClientInput} {c : Client}
    {tr : List ClientObs} (h : Run (clientStep config) (fun _ _ => True) .start is c tr) :
    (Justified RetriesLogin tr ∧ Run (clientStep config) (ReturnsError config) .start is c tr) ↔
      Run (clientStep config) (fun c i => ¬ RetriesSession c i) .start is c tr := by
  have hretries := h.holds_iff (I := AttemptKnown) (P := fun _ tr => Justified RetriesLogin tr)
    (B := RetriesSession) attemptKnown_start (fun hk _ hs => attemptKnown_step hk hs)
    justified_nil (fun hk _ hs => retriesLogin_step hk hs)
  constructor
  · intro hboth
    exact hboth.2.mono_steps fun hok hs => (returnsError_iff hs).mp hok
  · intro hgood
    refine ⟨hretries.mpr (hgood.mono fun _ _ hok => ⟨trivial, hok⟩), ?_⟩
    exact hgood.mono_steps fun hok hs => (returnsError_iff hs).mpr hok

/-! ### A failed login and a session that breaks off -/

/-- The pool hangs up on the login of the first profile. -/
def closedLoginRun : List ClientInput :=
  [.check, .connect (.ok ()), .loginWritten (.ok ()), .read .eof]

theorem retries_only_logins_closed :
    ∃ c tr, Run (clientStep sampleConfig) (fun _ _ => True) .start closedLoginRun c tr ∧
      c.phase = .connecting .xmrigCompat ∧ Justified RetriesLogin tr ∧
      Run (clientStep sampleConfig) (ReturnsError sampleConfig) .start closedLoginRun c tr := by
  have hgood : ∀ (c : Client), ∀ i ∈ closedLoginRun, ¬ RetriesSession c i := by
    intro c i hi
    simp only [closedLoginRun, List.mem_cons, List.not_mem_nil, or_false] at hi
    rcases hi with rfl | rfl | rfl | rfl <;> exact id
  have hexec : (exec (clientStep sampleConfig) .start closedLoginRun).any
      (fun r => decide (r.1.phase = .connecting .xmrigCompat)) = true := by decide +kernel
  obtain ⟨c, tr, hrun, hphase⟩ := run_of_exec_test
    (p := fun (c : Client) (_ : List ClientObs) => decide (c.phase = .connecting .xmrigCompat))
    hexec hgood
  obtain ⟨hlogins, hreturns⟩ := (retries_only_logins_iff sampleConfig hrun.any).mpr hrun
  exact ⟨c, tr, hrun.any, of_decide_eq_true hphase, hlogins, hreturns⟩

/-- The TLS stream of a logged-in session breaks off. -/
def tlsCloseRun : List ClientInput :=
  [.check, .connect (.ok ()), .loginWritten (.ok ()), .read (.line loginReplyLine), .sendEvent,
    .read (.error { kind := .other, text := "record layer failure" })]

/-- An attempt with another profile after an accepted login. -/
def retriesAccepted (past : List ClientObs) : ClientObs → Bool
  | .attempt p => p ≠ .lite && loginAccepted past
  | _ => false

/-- The broken session is taken for a failed login of its profile. -/
theorem retry_after_accepted_login :
    ∃ c tr, Run (clientStep sampleConfig) (fun _ _ => True) .start tlsCloseRun c tr ∧
      ¬ Justified RetriesLogin tr := by
  have hexec : (exec (clientStep sampleConfig) .start tlsCloseRun).any
      (fun r => endsWith retriesAccepted r.2) = true := by decide +kernel
  obtain ⟨c, tr, hrun, hends⟩ := anyRun_of_exec_test
    (p := fun _ tr => endsWith retriesAccepted tr) hexec
  refine ⟨c, tr, hrun, fun hjust => ?_⟩
  obtain ⟨past, o, rfl, ho⟩ := exists_of_endsWith hends
  have hlast := ((justified_snoc past o).mp hjust).2
  unfold retriesAccepted at ho
  split at ho
  · rw [Bool.and_eq_true, decide_eq_true_eq] at ho
    rcases hlast with hlite | hfailed
    · exact ho.1 hlite
    · rw [ho.2] at hfailed
      cases hfailed
  · cases ho

end LiteXmr.Stratum
