/-
LiteXmr.Controller.PoolModeTheorems — the pool mode as a whole, and the
circular wait of its queues.

`PoolMoves` lists what a step can be, and `clientRun_of_poolRun` reads the run
of the client out of a run of the system.

* `no_circular_wait_iff` — a run has not reached the state in which the
  controller waits on the full submit queue and the client on the full event
  queue exactly when no step of it closed that circle (`ClosesCircle`). The
  state is never left, and `circular_wait_reachable` reaches it: a pool
  outage fills both queues.
-/
import LiteXmr.Controller.PoolMode
import LiteXmr.Miner.WorkerTheorems
import LiteXmr.Stratum.ClientEventTheorems

namespace LiteXmr.Pool

open Lts Stratum

/-! ## What a step can be -/

inductive PoolMoves (cc : ClientConfig) (mc : MinerConfig) (s : PoolState) :
    PoolInput → PoolState → List PoolObs → Prop where
  | client {i : ClientInput} {client : Client} {os : List ClientObs}
      (hi : isExchange i = false) (hrun : s.controller.phase ≠ .stopped)
      (hc : clientStep cc s.client i = some (client, os))
      (hj : os.filterMap publishedJob = []) :
      PoolMoves cc mc s (.client i) { s with client } (os.map .client)
  | publish {i : ClientInput} {client : Client} {os : List ClientObs} {job : Job}
      {jobs : List Job} {miner : MinerState} {mos : List MinerObs}
      (hi : isExchange i = false) (hrun : s.controller.phase ≠ .stopped)
      (hc : clientStep cc s.client i = some (client, os))
      (hj : os.filterMap publishedJob = job :: jobs)
      (hm : minerStep mc s.miner (.publish job) = some (miner, mos)) :
      PoolMoves cc mc s (.client i) { s with client, miner }
        (os.map .client ++ mos.map .miner)
  | miner {i : MinerInput} {miner : MinerState} {os : List MinerObs}
      (hpub : ∀ job, i ≠ .publish job) (hpop : i ≠ .pop)
      (hm : minerStep mc s.miner i = some (miner, os)) :
      PoolMoves cc mc s (.miner i) { s with miner } (os.map .miner)
  | sendEvent {event : StratumEvent} {rest : List StratumEvent}
      (hrun : s.controller.phase ≠ .stopped) (hroom : s.events.length < queueCapacity)
      (ho : s.client.outbox = event :: rest) :
      PoolMoves cc mc s .sendEvent
        { s with client := { s.client with outbox := rest }, events := s.events ++ [event] }
        [.client (.emitted event)]
  | recvSubmit {submission : Submission} {rest : List Submission} {p : LoginProfile}
      {sid : String} (hrun : s.controller.phase ≠ .stopped)
      (hq : s.submits = submission :: rest) (ho : s.client.outbox = [])
      (hp : s.client.phase = .mining p sid) :
      PoolMoves cc mc s .recvSubmit
        { s with
          client :=
            { s.client with phase := .writing p sid, requestId := s.client.requestId + 1 }
          submits := rest }
        [.client (.submit sid s.client.requestId submission
          (buildSubmit sid submission s.client.requestId))]
  | recvEvent {event : StratumEvent} {rest : List StratumEvent}
      (hp : s.controller.phase = .selecting) (hq : s.events = event :: rest) :
      PoolMoves cc mc s .recvEvent
        { s with events := rest, controller := s.controller.handleEvent event } []
  | recvShare {found : Found} {rest : List Found} (hp : s.controller.phase = .selecting)
      (hq : s.miner.mined = found :: rest) :
      PoolMoves cc mc s .recvShare
        { s with
          miner := { s.miner with mined := rest }
          controller :=
            { s.controller with phase := .sending (Submission.ofShare found.share) } }
        [.miner (.popped found)]
  | shutdown (hp : s.controller.phase = .selecting) :
      PoolMoves cc mc s .shutdown
        { s with controller := { s.controller with phase := .stopped } } []
  | submitLost {submission : Submission} (hp : s.controller.phase = .sending submission)
      (hleft : s.client.LeftLoop) :
      PoolMoves cc mc s .submitSent
        { s with controller := { s.controller with phase := .selecting } } []
  | submitSent {submission : Submission} (hp : s.controller.phase = .sending submission)
      (hroom : s.submits.length < queueCapacity) :
      PoolMoves cc mc s .submitSent
        { s with
          controller := { s.controller with phase := .selecting }
          submits := s.submits ++ [submission] } []

section Moves

variable {cc : ClientConfig} {mc : MinerConfig} {s s' : PoolState} {os : List PoolObs}

theorem poolMoves_of_clientMove {i : ClientInput} (hi : isExchange i = false)
    (hrun : s.controller.phase ≠ .stopped) (h : clientMove cc mc s i = some (s', os)) :
    PoolMoves cc mc s (.client i) s' os := by
  simp only [clientMove] at h
  split at h
  · cases h
  · next hc =>
      split at h
      · next hj =>
          cases h
          exact .client hi hrun hc hj
      · next hj =>
          split at h
          · cases h
          · next hm =>
              cases h
              exact .publish hi hrun hc hj hm

theorem poolMoves_of_minerMove {i : MinerInput} (hpub : ∀ job, i ≠ .publish job)
    (hpop : i ≠ .pop) (h : minerMove mc s i = some (s', os)) :
    PoolMoves cc mc s (.miner i) s' os := by
  simp only [minerMove] at h
  split at h
  · cases h
  · next hm =>
      cases h
      exact .miner hpub hpop hm

theorem partyStep_of_poolStep {i : PoolInput} (h : poolStep cc mc s i = some (s', os)) :
    s.client.phase ≠ .aborted ∧ partyStep cc mc s i = some (s', os) := by
  unfold poolStep at h
  split at h
  · cases h
  · next hp => exact ⟨hp, h⟩

theorem poolMoves_of_step {i : PoolInput} (h : poolStep cc mc s i = some (s', os)) :
    PoolMoves cc mc s i s' os := by
  replace h := (partyStep_of_poolStep h).2
  cases i with
  | client i =>
      simp only [partyStep] at h
      split at h
      · cases h
      · next hno =>
          rw [not_or] at hno
          exact poolMoves_of_clientMove (by simpa using hno.1) hno.2 h
  | miner i =>
      cases i <;> simp only [partyStep, reduceCtorEq] at h
      case dropSender =>
        split at h
        · exact poolMoves_of_minerMove (by simp) (by simp) h
        · cases h
      all_goals exact poolMoves_of_minerMove (by simp) (by simp) h
  | sendEvent =>
      simp only [partyStep] at h
      split at h
      · cases h
      · next hno =>
          rw [not_or] at hno
          split at h
          · cases h
          · next event rest ho =>
              simp only [clientMove, clientStep, ho, List.filterMap_cons, publishedJob,
                List.filterMap_nil] at h
              cases h
              exact .sendEvent hno.1 (by omega) ho
  | recvSubmit =>
      simp only [partyStep] at h
      split at h
      · cases h
      · next hrun =>
          split at h
          · cases h
          · next submission rest hq =>
              cases hc : clientStep cc s.client (.recvSubmit submission) with
              | none => simp [clientMove, hc] at h
              | some r =>
                  obtain ⟨client, os'⟩ := r
                  cases clientMoves_of_step hc with
                  | submit ho hp =>
                      simp only [clientMove, hc, List.filterMap_cons, publishedJob,
                        List.filterMap_nil] at h
                      cases h
                      exact .recvSubmit hrun hq ho hp
                  | failed _ hf => cases hf
  | recvEvent =>
      simp only [partyStep] at h
      split at h
      · next hp hq =>
          cases h
          exact .recvEvent hp hq
      · cases h
  | recvShare =>
      simp only [partyStep] at h
      split at h
      · next found rest hp hq =>
          simp only [minerMove, minerStep, hq] at h
          cases h
          exact .recvShare hp hq
      · cases h
  | shutdown =>
      simp only [partyStep] at h
      split at h
      · next hp =>
          cases h
          exact .shutdown hp
      · cases h
  | submitSent =>
      simp only [partyStep] at h
      split at h
      · next hp =>
          split at h
          · next hleft =>
              cases h
              exact .submitLost hp hleft
          · split at h
            · next hroom =>
                cases h
                exact .submitSent hp hroom
            · cases h
      · cases h

end Moves

@[simp] theorem Controller.handleEvent_phase (controller : Controller)
    (event : StratumEvent) : (controller.handleEvent event).phase = controller.phase := by
  cases event <;> rfl

/-! ## The client's part of a run -/

def PoolObs.clientOf : PoolObs → Option ClientObs
  | .client o => some o
  | .miner _ => none

def clientTrace (tr : List PoolObs) : List ClientObs := tr.filterMap PoolObs.clientOf

@[simp] theorem clientTrace_append (tr os : List PoolObs) :
    clientTrace (tr ++ os) = clientTrace tr ++ clientTrace os := List.filterMap_append

@[simp] theorem clientTrace_map_client (os : List ClientObs) :
    clientTrace (os.map .client) = os := by
  unfold clientTrace
  rw [List.filterMap_map]
  exact List.filterMap_some

@[simp] theorem clientTrace_map_miner (os : List MinerObs) :
    clientTrace (os.map .miner) = [] := by
  simp [clientTrace, PoolObs.clientOf]

/-- A step leaves the client alone, or is one of its own steps: of the client
by itself, or its part of an exchange. -/
theorem clientStep_of_poolStep {cc : ClientConfig} {mc : MinerConfig} {s s' : PoolState}
    {i : PoolInput} {os : List PoolObs} (hs : poolStep cc mc s i = some (s', os)) :
    ((∀ j, i ≠ .client j) ∧ s'.client = s.client ∧ clientTrace os = []) ∨
      ∃ j, (i = .client j ∨ (∀ k, i ≠ .client k) ∧ isExchange j = true) ∧
        clientStep cc s.client j = some (s'.client, clientTrace os) := by
  cases poolMoves_of_step hs with
  | @client i client os _ _ hc _ =>
      exact Or.inr ⟨i, Or.inl rfl, hc.trans (by rw [clientTrace_map_client])⟩
  | @publish i client os job jobs miner mos _ _ hc _ _ =>
      refine Or.inr ⟨i, Or.inl rfl, hc.trans ?_⟩
      rw [clientTrace_append, clientTrace_map_client, clientTrace_map_miner, List.append_nil]
  | @miner i miner os _ _ _ => exact Or.inl ⟨by simp, rfl, clientTrace_map_miner os⟩
  | sendEvent _ _ ho =>
      exact Or.inr ⟨.sendEvent, Or.inr ⟨by simp, rfl⟩,
        by simp [clientStep, ho, clientTrace, PoolObs.clientOf]⟩
  | @recvSubmit submission _ p sid _ _ ho hp =>
      exact Or.inr ⟨.recvSubmit submission, Or.inr ⟨by simp, rfl⟩,
        by simp [clientStep, ho, hp, Client.act, clientTrace, PoolObs.clientOf]⟩
  | _ => exact Or.inl ⟨by simp, rfl, rfl⟩

/-- The client goes through a run of its own. -/
theorem clientRun_of_poolRun {cc : ClientConfig} {mc : MinerConfig} {is : List PoolInput}
    {s : PoolState} {tr : List PoolObs} {ok : PoolState → PoolInput → Prop}
    (h : Run (poolStep cc mc) ok (.start cc mc) is s tr) :
    ∃ js, Run (clientStep cc) (fun _ _ => True) .start js s.client (clientTrace tr) := by
  refine h.project (fun s => s.client) PoolObs.clientOf ?_
  intro s s' os i _ hs
  rcases clientStep_of_poolStep hs with ⟨_, hclient, hos⟩ | ⟨j, _, hc⟩
  · exact Or.inl ⟨hclient, hos⟩
  · exact Or.inr ⟨j, trivial, hc⟩

/-! ## The circular wait -/

/-- The controller waits for room in the submit queue. -/
def SubmitBlocked (s : PoolState) : Prop :=
  (∃ submission, s.controller.phase = .sending submission) ∧
    queueCapacity ≤ s.submits.length ∧ ¬ s.client.LeftLoop

/-- The client waits for room in the event queue. -/
def EventBlocked (s : PoolState) : Prop :=
  s.client.outbox ≠ [] ∧ queueCapacity ≤ s.events.length

def CircularWait (s : PoolState) : Prop := SubmitBlocked s ∧ EventBlocked s

/-- The steps that close the circle: the controller takes a share while the
submit queue is full and the client waits; or the controller waits and the
client raises an event while the event queue is full, or fills the queue with
another event to come. -/
def ClosesCircle (config : ClientConfig) (s : PoolState) : PoolInput → Prop
  | .recvShare => queueCapacity ≤ s.submits.length ∧ EventBlocked s
  | .client i => SubmitBlocked s ∧ queueCapacity ≤ s.events.length ∧ Reports config s.client i
  | .sendEvent =>
      SubmitBlocked s ∧ s.events.length + 1 = queueCapacity ∧ 2 ≤ s.client.outbox.length
  | _ => False

theorem ne_sendEvent_of_isExchange {j : ClientInput} (hj : isExchange j = false) :
    j ≠ .sendEvent := by
  intro h
  rw [h] at hj
  cases hj

section CircularWait

variable {cc : ClientConfig} {mc : MinerConfig} {s s' : PoolState} {i : PoolInput}
  {os : List PoolObs}

theorem settled_pool_step (h : s.client.Settled)
    (hs : poolStep cc mc s i = some (s', os)) : s'.client.Settled := by
  cases poolMoves_of_step hs with
  | client _ _ hc _ => exact settled_step h hc
  | publish _ _ hc _ _ => exact settled_step h hc
  | @sendEvent event rest _ _ ho =>
      have hc : clientStep cc s.client .sendEvent
          = some ({ s.client with outbox := rest }, [.emitted event]) := by
        simp [clientStep, ho]
      exact settled_step h hc
  | recvSubmit _ _ _ _ =>
      intro hleft
      simp [Client.LeftLoop] at hleft
  | _ => exact h

theorem not_circularWait_of_phase (h : ∀ submission, s.controller.phase ≠ .sending submission) :
    ¬ CircularWait s := by
  intro hw
  obtain ⟨⟨⟨submission, hp⟩, _⟩, _⟩ := hw
  exact h submission hp

/-- A step of the client by itself, with or without a job: only the client
changes of what the wait depends on. -/
theorem circularWait_iff_of_client {j : ClientInput} {cos : List ClientObs}
    (h : ¬ CircularWait s) (hset : s'.client.Settled) (hj : isExchange j = false)
    (hc : clientStep cc s.client j = some (s'.client, cos))
    (hcontroller : s'.controller = s.controller) (hevents : s'.events = s.events)
    (hsubmits : s'.submits = s.submits) :
    CircularWait s' ↔ ClosesCircle cc s (.client j) := by
  by_cases ho : s.client.outbox = []
  · have hreports := outbox_ne_nil_iff_reports ho hc
    simp only [CircularWait, SubmitBlocked, EventBlocked, ClosesCircle, hcontroller, hevents,
      hsubmits]
    constructor
    · intro hw
      obtain ⟨⟨hp, hfull, hin⟩, hout, hev⟩ := hw
      exact ⟨⟨hp, hfull, fun hleft => hin (leftLoop_step hleft hc)⟩, hev, hreports.mp hout⟩
    · intro hcloses
      obtain ⟨⟨hp, hfull, _⟩, hev, hr⟩ := hcloses
      have hout := hreports.mpr hr
      exact ⟨⟨hp, hfull, fun hleft => hout (hset hleft)⟩, hout, hev⟩
  · have hne : j ≠ .sendEvent := ne_sendEvent_of_isExchange hj
    obtain ⟨hobx, hph⟩ := blocked_step ho hne hc
    refine iff_of_false ?_ ?_
    · intro hw
      obtain ⟨⟨hp, hfull, hin⟩, hout, hev⟩ := hw
      rw [Client.LeftLoop, hph] at hin
      exact h ⟨⟨hcontroller ▸ hp, hsubmits ▸ hfull, hin⟩, ho, hevents ▸ hev⟩
    · intro hcloses
      obtain ⟨hblocked, hev, _⟩ := hcloses
      exact h ⟨hblocked, ho, hev⟩

theorem circularWait_iff_of_step (h : ¬ CircularWait s) (hset : s.client.Settled)
    (hs : poolStep cc mc s i = some (s', os)) : CircularWait s' ↔ ClosesCircle cc s i := by
  have hset' := settled_pool_step hset hs
  cases poolMoves_of_step hs with
  | client hj _ hc _ => exact circularWait_iff_of_client h hset' hj hc rfl rfl rfl
  | publish hj _ hc _ _ => exact circularWait_iff_of_client h hset' hj hc rfl rfl rfl
  | miner _ _ _ => exact iff_of_false h (by simp [ClosesCircle])
  | @sendEvent event rest hrun hroom ho =>
      -- the queue takes the event; what can be left over is another event
      simp only [CircularWait, SubmitBlocked, EventBlocked, ClosesCircle, ho, List.length_cons,
        List.length_append, List.length_nil]
      constructor
      · intro hw
        obtain ⟨hblocked, hrest, hev⟩ := hw
        have hpos : 0 < rest.length := List.length_pos_iff.mpr hrest
        exact ⟨hblocked, by omega, by omega⟩
      · intro hcloses
        obtain ⟨hblocked, hev, hrest⟩ := hcloses
        exact ⟨hblocked, List.length_pos_iff.mp (by omega), by omega⟩
  | recvSubmit _ _ ho _ =>
      refine iff_of_false ?_ (by simp [ClosesCircle])
      intro hw
      exact hw.2.1 ho
  | recvEvent hp _ =>
      exact iff_of_false (not_circularWait_of_phase (by simp [hp])) (by simp [ClosesCircle])
  | recvShare hp hq =>
      simp only [CircularWait, SubmitBlocked, ClosesCircle]
      constructor
      · intro hw
        exact ⟨hw.1.2.1, hw.2⟩
      · intro hcloses
        obtain ⟨hfull, hev⟩ := hcloses
        exact ⟨⟨⟨_, rfl⟩, hfull, fun hleft => hev.1 (hset hleft)⟩, hev⟩
  | shutdown hp =>
      exact iff_of_false (not_circularWait_of_phase (by simp)) (by simp [ClosesCircle])
  | submitLost _ _ =>
      exact iff_of_false (not_circularWait_of_phase (by simp)) (by simp [ClosesCircle])
  | submitSent _ _ =>
      exact iff_of_false (not_circularWait_of_phase (by simp)) (by simp [ClosesCircle])

/-- A circular wait is for good. -/
theorem circularWait_step (h : CircularWait s) (hs : poolStep cc mc s i = some (s', os)) :
    CircularWait s' := by
  obtain ⟨⟨⟨submission, hp⟩, hfull, hin⟩, hout, hevents⟩ := h
  cases poolMoves_of_step hs with
  | @client j client cos hj hrun hc hpub =>
      have hne : j ≠ .sendEvent := ne_sendEvent_of_isExchange hj
      obtain ⟨hobx, hph⟩ := blocked_step hout hne hc
      refine ⟨⟨⟨submission, hp⟩, hfull, ?_⟩, ?_, hevents⟩
      · rwa [Client.LeftLoop, hph]
      · rwa [hobx]
  | @publish j client cos job jobs miner mos hj hrun hc hpub hm =>
      have hne : j ≠ .sendEvent := ne_sendEvent_of_isExchange hj
      obtain ⟨hobx, hph⟩ := blocked_step hout hne hc
      refine ⟨⟨⟨submission, hp⟩, hfull, ?_⟩, ?_, hevents⟩
      · rwa [Client.LeftLoop, hph]
      · rwa [hobx]
  | miner _ _ _ => exact ⟨⟨⟨submission, hp⟩, hfull, hin⟩, hout, hevents⟩
  | sendEvent _ hroom _ => omega
  | recvSubmit _ _ ho _ => exact absurd ho hout
  | recvEvent hp' _ => simp [hp] at hp'
  | recvShare hp' _ => simp [hp] at hp'
  | shutdown hp' => simp [hp] at hp'
  | submitLost _ hleft => exact absurd hleft hin
  | submitSent _ hroom => omega

end CircularWait

/-- A run has kept out of the circular wait exactly when none of its steps
closed the circle; and whatever happens after the circle is closed leaves it
closed. -/
theorem no_circular_wait_iff (cc : ClientConfig) (mc : MinerConfig) {is : List PoolInput}
    {s : PoolState} {tr : List PoolObs}
    (h : Run (poolStep cc mc) (fun _ _ => True) (.start cc mc) is s tr) :
    (¬ CircularWait s ↔
      Run (poolStep cc mc) (fun s i => ¬ ClosesCircle cc s i) (.start cc mc) is s tr) ∧
    (CircularWait s → ∀ js s' tr', Run (poolStep cc mc) (fun _ _ => True) s js s' tr' →
      CircularWait s') := by
  have hsettled := h.withInvariant (P := fun s => s.client.Settled) settled_start
    fun hset _ hs => settled_pool_step hset hs
  refine ⟨?_, fun hw js s' tr' hrun =>
    hrun.stateInvariant hw fun hw' _ hs => circularWait_step hw' hs⟩
  rw [hsettled.avoids_iff (F := CircularWait) (B := ClosesCircle cc)
    (fun hw => hw.2.1 rfl) (fun hw hok hs => circularWait_iff_of_step hw hok.2 hs)
    fun hw _ hs => circularWait_step hw hs]
  constructor
  · exact fun hrun => hrun.mono fun s i hok => hok.2
  · intro hrun
    exact (hrun.withInvariant (P := fun s => s.client.Settled) settled_start
      fun hset _ hs => settled_pool_step hset hs).mono
        fun s i hok => ⟨⟨trivial, hok.2⟩, hok.1⟩

/-! ### An outage -/

/-- A login reply with a job. -/
def jobReplyLine : String :=
  "\x7b\"id\":1,\"result\":\x7b\"id\":\"s\",\"job\":\x7b\"job_id\":\"j\",\"blob\":\""
    ++ zeroBlobJob.blob ++ "\",\"target\":\"ffffffff\"\x7d\x7d\x7d"

/-- The reply to the login of the next session, without a job. -/
def secondReplyLine : String := "\x7b\"id\":2,\"result\":\x7b\"id\":\"t\"\x7d\x7d"

/-- What `serde_json` makes of these lines. -/
def poolParse (line : String) : Except String Json :=
  if line = jobReplyLine then
    .ok (.object [("id", .number (.posInt 1)), ("result", .object
      [("id", .string "s"), ("job", .object
        [("job_id", .string "j"), ("blob", .string zeroBlobJob.blob),
          ("target", .string "ffffffff")])])])
  else if line = secondReplyLine then
    .ok (.object [("id", .number (.posInt 2)), ("result", .object [("id", .string "t")])])
  else sampleParse line

def poolConfig : ClientConfig := { sampleConfig with parse := poolParse }

/-- One thread, whose every hash is a share. -/
def poolMiner : MinerConfig := { hash := fun _ => zeroHash, threadCount := 1 }

def loginInputs : List PoolInput :=
  [.client .check, .client (.connect (.ok ())), .client (.loginWritten (.ok ())),
    .client (.read (.line jobReplyLine)), .sendEvent, .sendEvent, .recvEvent, .recvEvent]

def firstBatchInputs : List PoolInput :=
  [.miner (.read 0), .miner (.cache (.lock 0)), .miner (.cache (.built 0 true)),
    .miner (.cache (.store 0)), .miner (.createVm 0 true), .miner (.mine 0)]

def outageInputs : List PoolInput :=
  [.client (.read (.error { kind := .connectionReset, text := "connection reset" })),
    .sendEvent, .recvEvent, .client .wake]

/-- A login whose events the controller has taken. -/
theorem no_circular_wait_login :
    ∃ s tr, Run (poolStep poolConfig poolMiner) (fun _ _ => True)
        (.start poolConfig poolMiner) loginInputs s tr ∧
      Run (poolStep poolConfig poolMiner) (fun s i => ¬ ClosesCircle poolConfig s i)
        (.start poolConfig poolMiner) loginInputs s tr := by
  have hexec : (exec (poolStep poolConfig poolMiner) (.start poolConfig poolMiner)
      loginInputs).any (fun r => r.1.events.isEmpty) = true := by decide +kernel
  obtain ⟨s, tr, hrun, hempty⟩ := anyRun_of_exec_test
    (p := fun (s : PoolState) (_ : List PoolObs) => s.events.isEmpty) hexec
  have hfree : ¬ CircularWait s := by
    intro hw
    have hev := hw.2.2
    rw [List.isEmpty_iff.mp hempty] at hev
    simp [queueCapacity] at hev
  exact ⟨s, tr, hrun, (no_circular_wait_iff poolConfig poolMiner hrun).1.mp hfree⟩

/-- The pool is gone: the client is about to try again, and worker `0` has this
many shares to offer. -/
structure Outage (shares : Nat) (s : PoolState) : Prop where
  running : s.client.running = true
  outbox : s.client.outbox = []
  phase : s.client.phase = .loopHead
  mined : s.miner.mined = []
  offering : ∃ found, (s.miner.workers 0).phase = .offering found ∧ shares ≤ found.length

/-- The queues during an outage, `n` shares later. -/
structure SubmitsFill (n : Nat) (s : PoolState) : Prop where
  outage : Outage (queueCapacity + 1 - n) s
  selecting : s.controller.phase = .selecting
  submits : s.submits.length = n
  events : s.events = []

/-- The controller waits; the client has failed to connect `n` times. -/
structure EventsFill (n : Nat) (s : PoolState) : Prop where
  running : s.client.running = true
  outbox : s.client.outbox = []
  phase : s.client.phase = .loopHead
  sending : ∃ submission, s.controller.phase = .sending submission
  submits : s.submits.length = queueCapacity
  events : s.events.length = n

section Outage

variable {cc : ClientConfig} {mc : MinerConfig}

/-- One more share passes from the worker to the submit queue. -/
theorem submitsFill_succ {n : Nat} (hn : n < queueCapacity) :
    Leads (poolStep cc mc) (fun _ _ => True) (SubmitsFill n) (SubmitsFill (n + 1)) := by
  refine Leads.of_exec [.miner (.offer 0), .recvShare, .submitSent] (fun _ _ _ => trivial) ?_
  intro s h
  obtain ⟨found, hfound, hlen⟩ := h.outage.offering
  obtain ⟨f, rest, rfl⟩ : ∃ f rest, found = f :: rest := by
    cases found with
    | nil => simp at hlen; omega
    | cons f rest => exact ⟨f, rest, rfl⟩
  have hin : ¬ s.client.LeftLoop := by simp [Client.LeftLoop, h.outage.phase]
  have hroom : s.submits.length < queueCapacity := by rw [h.submits]; exact hn
  have hrest : queueCapacity + 1 - (n + 1) ≤ rest.length := by
    rw [List.length_cons] at hlen
    omega
  simp only [exec, poolStep, partyStep, minerMove, minerStep, hfound, MinerState.trySend,
    MinerState.setWorker, h.outage.phase, h.outage.mined, minedCapacity, h.selecting, hin, hroom,
    List.length_nil, Nat.reduceLT, List.nil_append, reduceCtorEq, if_true, if_false,
    Option.some.injEq, exists_eq_left']
  exact
    { outage :=
        { running := h.outage.running, outbox := h.outage.outbox, phase := h.outage.phase
          mined := rfl, offering := ⟨rest, by simp, hrest⟩ }
      selecting := rfl
      submits := by simp [h.submits]
      events := h.events }

/-- The share after that is one too many for the submit queue. -/
theorem eventsFill_of_submitsFill :
    Leads (poolStep cc mc) (fun _ _ => True) (SubmitsFill queueCapacity) (EventsFill 0) := by
  refine Leads.of_exec [.miner (.offer 0), .recvShare] (fun _ _ _ => trivial) ?_
  intro s h
  obtain ⟨found, hfound, hlen⟩ := h.outage.offering
  obtain ⟨f, rest, rfl⟩ : ∃ f rest, found = f :: rest := by
    cases found with
    | nil => simp at hlen
    | cons f rest => exact ⟨f, rest, rfl⟩
  simp only [exec, poolStep, partyStep, minerMove, minerStep, hfound, MinerState.trySend,
    MinerState.setWorker, h.outage.phase, h.outage.mined, minedCapacity, h.selecting,
    List.length_nil, Nat.reduceLT, List.nil_append, reduceCtorEq, if_true, if_false,
    Option.some.injEq, exists_eq_left']
  exact
    { running := h.outage.running, outbox := h.outage.outbox, phase := h.outage.phase
      sending := ⟨_, rfl⟩, submits := h.submits, events := by simp [h.events] }

/-- One more refused attempt leaves one more event. -/
theorem eventsFill_succ {n : Nat} (hn : n < queueCapacity) :
    Leads (poolStep cc mc) (fun _ _ => True) (EventsFill n) (EventsFill (n + 1)) := by
  refine Leads.of_exec
    [.client .check, .client (.connect (.error "connection refused")), .sendEvent,
      .client .wake] (fun _ _ _ => trivial) ?_
  intro s h
  obtain ⟨submission, hsending⟩ := h.sending
  have hroom : ¬ queueCapacity ≤ s.events.length := by rw [h.events]; omega
  have hfatal : isLoginRetryable (.network "connection refused") = false := by decide
  simp only [exec, poolStep, partyStep, isExchange, clientMove, clientStep, Client.act, Client.fail,
    LoginProfile.next, hfatal, h.running, h.outbox, h.phase, hsending, hroom, publishedJob,
    List.filterMap_cons, List.filterMap_nil, Bool.false_eq_true, reduceCtorEq, or_self,
    if_true, if_false, Option.some.injEq, exists_eq_left']
  exact
    { running := rfl, outbox := rfl, phase := rfl, sending := ⟨_, hsending⟩
      submits := h.submits, events := by simp [h.events] }

/-- The attempt after that finds no room for its event. -/
theorem circularWait_of_eventsFill :
    Leads (poolStep cc mc) (fun _ _ => True) (EventsFill queueCapacity) CircularWait := by
  refine Leads.of_exec [.client .check, .client (.connect (.error "connection refused"))]
    (fun _ _ _ => trivial) ?_
  intro s h
  obtain ⟨submission, hsending⟩ := h.sending
  have hfatal : isLoginRetryable (.network "connection refused") = false := by decide
  simp only [exec, poolStep, partyStep, isExchange, clientMove, clientStep, Client.act, Client.fail,
    LoginProfile.next, hfatal, h.running, h.outbox, h.phase, hsending, publishedJob,
    List.filterMap_cons, List.filterMap_nil, Bool.false_eq_true, reduceCtorEq, or_self,
    if_true, if_false, Option.some.injEq, exists_eq_left']
  have hin : ¬ Client.LeftLoop
      { s.client with
        phase := .backoff
        outbox := [.disconnected (Error.network "connection refused").toString] } := by
    simp [Client.LeftLoop]
  exact ⟨⟨⟨submission, hsending⟩, h.submits.ge, hin⟩, by simp, h.events.ge⟩

/-- An outage that lasts leads to the circular wait. -/
theorem circularWait_of_outage :
    Leads (poolStep cc mc) (fun _ _ => True) (SubmitsFill 0) CircularWait :=
  (Leads.iterate queueCapacity fun _ => submitsFill_succ).trans
    (eventsFill_of_submitsFill.trans
      ((Leads.iterate queueCapacity fun _ => eventsFill_succ).trans
        circularWait_of_eventsFill))

end Outage

/-- Whether the outage finds both queues empty and more shares to offer than
the submit queue holds. -/
def outageBegins (s : PoolState) : Bool :=
  match (s.miner.workers 0).phase with
  | .offering found =>
      s.client.running ∧ s.client.outbox.isEmpty ∧ s.client.phase = .loopHead ∧
        s.miner.mined.isEmpty ∧ queueCapacity < found.length ∧
        s.controller.phase = .selecting ∧ s.submits.isEmpty ∧ s.events.isEmpty
  | _ => false

theorem submitsFill_of_outageBegins {s : PoolState} (h : outageBegins s = true) :
    SubmitsFill 0 s := by
  unfold outageBegins at h
  split at h
  · next found hfound =>
      simp only [List.isEmpty_iff, decide_eq_true_eq] at h
      obtain ⟨hrun, hout, hp, hm, hlen, hsel, hsub, hev⟩ := h
      exact
        { outage :=
            { running := hrun, outbox := hout, phase := hp, mined := hm
              offering := ⟨found, hfound, by omega⟩ }
          selecting := hsel, submits := by simp [hsub], events := hev }
  · cases h

/-- After one batch of shares the connection is reset and cannot be made
again: the circular wait is reached. -/
theorem circular_wait_reachable :
    ∃ is s tr, Run (poolStep poolConfig poolMiner) (fun _ _ => True)
      (.start poolConfig poolMiner) is s tr ∧ CircularWait s := by
  have hexec : (exec (poolStep poolConfig poolMiner) (.start poolConfig poolMiner)
      (loginInputs ++ firstBatchInputs ++ outageInputs)).any (fun r => outageBegins r.1)
        = true := by decide +kernel
  obtain ⟨s, tr, hrun, hbegins⟩ := anyRun_of_exec_test
    (p := fun (s : PoolState) (_ : List PoolObs) => outageBegins s) hexec
  obtain ⟨js, s', tr', hrun', hwait⟩ :=
    circularWait_of_outage s (submitsFill_of_outageBegins hbegins)
  exact ⟨_, s', _, hrun.append hrun', hwait⟩

end LiteXmr.Pool
