/-
LiteXmr.Controller.KeepaliveTheorems — a connection without mining
(`--keepalive`), over every run of the client, the mining threads and the
controller together.

No thread is started, and after its login the client is in `keepalive_loop`,
which reads and writes nothing. What has to be shown of the composed system
is that nothing reaches the queues between the parties either: jobs are still
published, but no thread is there to read them (`NoMiners`), so no share is
ever queued, submitted or written. The pool is listened to during the login
only (`OnlyLogsIn`).
-/
import LiteXmr.Controller.PoolModeTheorems

namespace LiteXmr.Pool

open Lts Stratum

/-! ## The client -/

/-- The login of the connection has not been answered. -/
def Unanswered (tr : List ClientObs) : Prop := ∀ msg, .loginReply msg ∉ session tr

/-- The client submits nothing, and takes messages before the reply to its login only. -/
def OnlyLogsIn (pre : List ClientObs) : ClientObs → Prop
  | .submit _ _ _ _ => False
  | .message _ | .loginReply _ => Unanswered pre
  | _ => True

/-- The phases of a login that is not answered yet. -/
def Phase.loggingIn : Phase → Bool
  | .sendingLogin _ _ | .awaitingReply _ _ => true
  | _ => false

/-- The phases in which shares are submitted. -/
def Phase.submits : Phase → Bool
  | .mining _ _ | .writing _ _ => true
  | _ => false

/-- The client is not in `mining_loop`, and knows whether its login is answered. -/
def KeepsAlive (c : Client) (tr : List ClientObs) : Prop :=
  Phase.submits c.phase = false ∧ (Phase.loggingIn c.phase = true → Unanswered tr)

section Client

variable {config : ClientConfig} {c c' : Client} {i : ClientInput} {tr os : List ClientObs}

theorem unanswered_opened (tr : List ClientObs) (p : LoginProfile) (id : UInt64) (msg : Json) :
    Unanswered (tr ++ [.opened p, .login id msg]) := by
  intro reply hmem
  rw [session_opened p (by simp [ClientObs.isOpened])] at hmem
  simp at hmem

/-- Observations that neither open a connection nor answer a login leave it as it is. -/
theorem Unanswered.append (h : Unanswered tr)
    (hos : ∀ o ∈ os, o.isOpened = false ∧ ∀ msg, o ≠ .loginReply msg) :
    Unanswered (tr ++ os) := by
  intro msg hmem
  rw [session_append fun o ho => (hos o ho).1] at hmem
  rcases List.mem_append.mp hmem with hmem | hmem
  · exact h msg hmem
  · exact (hos _ hmem).2 msg rfl

theorem quiet_message (c : Client) (msg : Json) :
    ∀ o ∈ (c.message msg).2, o.isOpened = false ∧ ∀ reply, o ≠ .loginReply reply :=
  forall_mem_message (fun _ => ⟨rfl, fun _ h => by cases h⟩) c ⟨rfl, fun _ h => by cases h⟩

theorem keepsAlive_fail (p : LoginProfile) (e : Error) (tr : List ClientObs) :
    KeepsAlive (c.fail p e).1 (tr ++ (c.fail p e).2) := by
  rcases c.fail_cases p e with ⟨next, _, _, hf⟩ | hf
  · rw [hf]
    exact ⟨rfl, fun h => by cases h⟩
  · rw [hf]
    exact ⟨rfl, fun h => by cases h⟩

theorem keepsAlive_step (hk : config.keepalive = true) (h : KeepsAlive c tr)
    (hs : clientStep config c i = some (c', os)) : KeepsAlive c' (tr ++ os) := by
  obtain ⟨hsubmits, hlogin⟩ := h
  cases clientMoves_of_step hs with
  | stop => exact ⟨hsubmits, by simpa using hlogin⟩
  | watch _ => exact ⟨hsubmits, by simpa using hlogin⟩
  | send _ =>
      exact ⟨hsubmits, fun hl => (hlogin hl).append (by simp [ClientObs.isOpened])⟩
  | attempt _ _ _ => exact ⟨rfl, fun h => by cases h⟩
  | leave _ _ _ => exact ⟨rfl, fun h => by cases h⟩
  | opened _ _ => exact ⟨rfl, fun _ => unanswered_opened tr _ _ _⟩
  | loginSent _ hp => exact ⟨rfl, fun _ => by simpa using hlogin (by rw [hp]; rfl)⟩
  | loggedIn _ _ _ _ _ =>
      simp only [KeepsAlive, Client.loggedIn, hk, if_true]
      exact ⟨rfl, fun h => by cases h⟩
  | earlyMessage _ _ _ _ =>
      exact ⟨hsubmits, fun hl => (hlogin hl).append (quiet_message c _)⟩
  | message _ _ _ _ => exact ⟨hsubmits, fun hl => (hlogin hl).append (quiet_message c _)⟩
  | skip _ _ _ => exact ⟨hsubmits, by simpa using hlogin⟩
  | panic _ _ | overflow _ _ => exact ⟨rfl, fun h => by cases h⟩
  | eof _ _ => exact ⟨rfl, fun h => by cases h⟩
  | shutdown _ _ _ => exact ⟨rfl, fun h => by cases h⟩
  | submit _ hp => simp [hp, Phase.submits] at hsubmits
  | submitted _ hp => simp [hp, Phase.submits] at hsubmits
  | failed _ _ => exact keepsAlive_fail _ _ tr
  | wake _ _ => exact ⟨rfl, fun h => by cases h⟩

/-- A message and the job it carries: the message is taken while the login is not
answered, and a job needs no reason. -/
theorem onlyLogsIn_of_message {o : ClientObs} (ho : OnlyLogsIn tr o) (handled : Handled) :
    ∀ pre x post, o :: handled.published = pre ++ x :: post → OnlyLogsIn (tr ++ pre) x := by
  intro pre x post heq
  cases pre with
  | nil =>
      cases heq
      simpa using ho
  | cons y pre =>
      have hx : x ∈ handled.published := by
        rw [(List.cons.inj heq).2]
        simp
      exact forall_mem_published (P := OnlyLogsIn (tr ++ y :: pre)) (fun _ => trivial) handled x hx

/-- Observations that need no reason. -/
theorem onlyLogsIn_of_free (h : ∀ o ∈ os, ∀ pre, OnlyLogsIn pre o) :
    ∀ pre x post, os = pre ++ x :: post → OnlyLogsIn (tr ++ pre) x := fun pre x _ heq =>
  h x (by simp [heq]) (tr ++ pre)

theorem onlyLogsIn_step (h : KeepsAlive c tr)
    (hs : clientStep config c i = some (c', os)) :
    ∀ pre x post, os = pre ++ x :: post → OnlyLogsIn (tr ++ pre) x := by
  obtain ⟨hsubmits, hlogin⟩ := h
  cases clientMoves_of_step hs with
  | loggedIn _ hp _ _ _ =>
      have hun := hlogin (by rw [hp]; rfl)
      exact onlyLogsIn_of_message (o := .loginReply _) hun _
  | earlyMessage _ hp _ _ =>
      have hun := hlogin (by rw [hp]; rfl)
      exact onlyLogsIn_of_message (o := .message _) hun _
  | message _ hp _ _ => simp [hp, Phase.submits] at hsubmits
  | submit _ hp => simp [hp, Phase.submits] at hsubmits
  | @failed p e _ _ _ =>
      refine onlyLogsIn_of_free fun o ho pre => ?_
      rcases c.fail_cases p e with ⟨next, _, _, hf⟩ | hf
      · rw [hf] at ho
        obtain rfl := List.mem_singleton.mp ho
        trivial
      · rw [hf] at ho
        cases ho
  | stop | watch _ | loginSent _ _ | skip _ _ _ | panic _ _ | overflow _ _ | submitted _ _
  | wake _ _ => exact onlyLogsIn_of_free (by simp)
  | send _ | attempt _ _ _ | leave _ _ _ | opened _ _ | eof _ _ | shutdown _ _ _ =>
      exact onlyLogsIn_of_free (by simp [Client.finish, OnlyLogsIn])

/-- A keepalive client, against any pool. -/
theorem keepsAlive_of_run {is : List ClientInput} (hk : config.keepalive = true)
    (h : Run (clientStep config) (fun _ _ => True) .start is c tr) :
    KeepsAlive c tr ∧ Justified OnlyLogsIn tr := by
  have halive : ∀ {is c tr}, Run (clientStep config) (fun _ _ => True) .start is c tr →
      KeepsAlive c tr := fun h =>
    h.invariant ⟨rfl, fun h => by cases h⟩ fun halive _ hs => keepsAlive_step hk halive hs
  exact ⟨halive h, h.justified fun hrun _ hs => onlyLogsIn_step (halive hrun) hs⟩

end Client

/-! ## The threads and the queues -/

/-- No worker runs, none is in the dataset cache, and no share is queued. -/
structure NoMiners (s : MinerState) : Prop where
  exited : ∀ w, (s.workers w).phase = .exited
  idle : ∀ w, s.cache.callers w = .idle
  mined : s.mined = []

theorem noMiners_start : NoMiners (.start 0) where
  exited w := by simp [MinerState.start]
  idle _ := rfl
  mined := rfl

/-- A step without workers is one of the job channel: what is observed is a published
job. -/
theorem noMiners_step {config : MinerConfig} {s s' : MinerState} {i : MinerInput}
    {os : List MinerObs} (h : NoMiners s) (hs : minerStep config s i = some (s', os)) :
    NoMiners s' ∧ ∀ o ∈ os, ∃ job, o = .published job := by
  have hphase : ∀ {w phase}, (s.workers w).phase = phase → phase ≠ .exited → False :=
    fun hp hne => hne (hp.symm.trans (h.exited _))
  cases minerMoves_of_step hs with
  | publish _ => exact ⟨⟨h.exited, h.idle, h.mined⟩, by simp⟩
  | dropSender => exact ⟨⟨h.exited, h.idle, h.mined⟩, by simp⟩
  | pop hm => simp [h.mined] at hm
  | @cache input _ _ hi hc =>
      have hidle := h.idle
      cases input <;> simp [cacheStep, hidle, CacheInput.isInternal] at hc hi
  | readNone hp _ | readNewVm hp _ _ | readSameVm hp _ _ | changed hp _ | exit hp _
  | newVm hp _ _ _ _ | noVm hp _ _ | batch hp _ _ _ | noBatch hp | offered hp | offer hp _ =>
      exact (hphase hp (by simp)).elim

/-- Nothing is on its way to the pool. -/
structure NothingQueued (s : PoolState) : Prop where
  miners : NoMiners s.miner
  submits : s.submits = []
  controller : ∀ submission, s.controller.phase ≠ .sending submission

/-- An observation of the mining threads is that of a published job. -/
def PublishesOnly (tr : List PoolObs) : Prop :=
  ∀ o, .miner o ∈ tr → ∃ job, o = .published job

theorem PublishesOnly.append {tr os : List PoolObs} (h : PublishesOnly tr)
    (hos : PublishesOnly os) : PublishesOnly (tr ++ os) := by
  intro o ho
  rcases List.mem_append.mp ho with ho | ho
  · exact h o ho
  · exact hos o ho

theorem publishesOnly_client (os : List ClientObs) : PublishesOnly (os.map .client) := by
  intro o ho
  simp at ho

theorem publishesOnly_miner {os : List MinerObs} (h : ∀ o ∈ os, ∃ job, o = .published job) :
    PublishesOnly (os.map .miner) := by
  intro o ho
  exact h o (by simpa using ho)

theorem nothingQueued_step {cc : ClientConfig} {mc : MinerConfig} {s s' : PoolState}
    {i : PoolInput} {os : List PoolObs} (h : NothingQueued s)
    (hs : poolStep cc mc s i = some (s', os)) : NothingQueued s' ∧ PublishesOnly os := by
  cases poolMoves_of_step hs with
  | client _ _ _ _ =>
      exact ⟨⟨h.miners, h.submits, h.controller⟩, publishesOnly_client _⟩
  | publish _ _ _ _ hm =>
      obtain ⟨hminers, hos⟩ := noMiners_step h.miners hm
      exact ⟨⟨hminers, h.submits, h.controller⟩,
        (publishesOnly_client _).append (publishesOnly_miner hos)⟩
  | miner _ _ hm =>
      obtain ⟨hminers, hos⟩ := noMiners_step h.miners hm
      exact ⟨⟨hminers, h.submits, h.controller⟩, publishesOnly_miner hos⟩
  | sendEvent _ _ _ =>
      exact ⟨⟨h.miners, h.submits, h.controller⟩, publishesOnly_client [_]⟩
  | recvSubmit _ hq _ _ => simp [h.submits] at hq
  | @recvEvent event _ _ _ =>
      refine ⟨⟨h.miners, h.submits, ?_⟩, publishesOnly_client []⟩
      cases event <;> exact h.controller
  | recvShare _ hq => simp [h.miners.mined] at hq
  | shutdown _ => exact ⟨⟨h.miners, h.submits, by simp⟩, publishesOnly_client []⟩
  | submitLost hp _ => exact absurd hp (h.controller _)
  | submitSent hp _ => exact absurd hp (h.controller _)

/-! ## The whole -/

/-- With `--keepalive` the client writes nothing but logins, takes the messages of the pool
until its login is answered and none after that, no share is found, queued or submitted, and
the threads' part of every run is that jobs are published. -/
theorem keepalive_only_logs_in {cc : ClientConfig} {mc : MinerConfig} {is : List PoolInput}
    {s : PoolState} {tr : List PoolObs} (hk : cc.keepalive = true)
    (h : Run (poolStep cc mc) (fun _ _ => True) (.start cc mc) is s tr) :
    s.miner.mined = [] ∧ s.submits = [] ∧
      (∀ submission, s.controller.phase ≠ .sending submission) ∧
      Justified OnlyLogsIn (clientTrace tr) ∧ PublishesOnly tr := by
  have hboth : NothingQueued s ∧ PublishesOnly tr := by
    refine h.invariant (P := fun s tr => NothingQueued s ∧ PublishesOnly tr)
      ⟨⟨?_, rfl, ?_⟩, ?_⟩ fun hq _ hs => ?_
    · simpa [PoolState.start, hk] using noMiners_start
    · simp [PoolState.start]
    · intro o ho
      cases ho
    · obtain ⟨hnext, hos⟩ := nothingQueued_step hq.1 hs
      exact ⟨hnext, hq.2.append hos⟩
  obtain ⟨js, hclient⟩ := clientRun_of_poolRun h
  exact ⟨hboth.1.miners.mined, hboth.1.submits, hboth.1.controller,
    (keepsAlive_of_run hk hclient).2, hboth.2⟩

def keepaliveConfig : ClientConfig := { poolConfig with keepalive := true }

/-- A login whose reply has a job, and a line that the client reads after it. -/
def keepaliveInputs : List PoolInput := loginInputs ++ [.client (.read (.line jobReplyLine))]

theorem keepalive_only_logs_in_login :
    ∃ s tr, Run (poolStep keepaliveConfig poolMiner) (fun _ _ => True)
        (.start keepaliveConfig poolMiner) keepaliveInputs s tr ∧
      s.miner.watch.version = 1 ∧ s.submits = [] ∧
        Justified OnlyLogsIn (clientTrace tr) := by
  have hexec : (exec (poolStep keepaliveConfig poolMiner) (.start keepaliveConfig poolMiner)
      keepaliveInputs).any (fun r => r.1.miner.watch.version == 1) = true := by decide +kernel
  obtain ⟨s, tr, hrun, hversion⟩ := anyRun_of_exec_test
    (p := fun (s : PoolState) (_ : List PoolObs) => s.miner.watch.version == 1) hexec
  obtain ⟨_, hsubmits, _, honly, _⟩ := keepalive_only_logs_in rfl hrun
  exact ⟨s, tr, hrun, by simpa using hversion, hsubmits, honly⟩

end LiteXmr.Pool
