/-
LiteXmr.Controller.PoolSharesTheorems — the shares of the pool mode: the jobs
its submissions are for, and what its share counters count.

* `submits_delivered_jobs` — every submit line carries a share that a worker
  mined on a job the pool delivered before, under the id of the session it is
  written in. The queues and the job channel outlive a session, and nothing
  ties what is in them to one: that the job was delivered in the same session
  does not hold (`share_submitted_in_later_session`).
* `share_events_answer_messages` — the events and the counters of accepted and
  rejected shares count the messages of the pool that look like replies. No
  record of outstanding submits is kept, and a message that answers none is
  counted as well (`null_id_counts_as_accepted`).
-/
import LiteXmr.Controller.PoolModeTheorems

namespace LiteXmr.Pool

open Lts Stratum

/-! ## Submissions -/

/-- A share found on a delivered job: a batch on the job gave it. -/
structure MinedOn (tr : List PoolObs) (job : Job) (share : MinedShare) : Prop where
  delivered : .client (.published job) ∈ tr
  jobId : share.jobId = job.jobId
  batch : FromBatch (fun o => .miner o ∈ tr) { share, job }

/-- A submission is such a share. -/
def FromShare (tr : List PoolObs) (submission : Submission) : Prop :=
  ∃ job share, MinedOn tr job share ∧ submission = Submission.ofShare share

/-- Where everything on the way from the jobs to the submissions comes from. -/
structure SharesSound (s : PoolState) (tr : List PoolObs) : Prop where
  jobs : JobsFrom (fun job => .client (.published job) ∈ tr) s.miner
  shares : SharesFrom (FromBatch fun o => .miner o ∈ tr) s.miner
  submits : ∀ submission ∈ s.submits, FromShare tr submission
  sending : ∀ submission, s.controller.phase = .sending submission → FromShare tr submission

section Sound

variable {cc : ClientConfig} {mc : MinerConfig} {s s' : PoolState} {i : PoolInput}
  {tr os : List PoolObs}

theorem MinedOn.append {job : Job} {share : MinedShare} (h : MinedOn tr job share)
    (os : List PoolObs) : MinedOn (tr ++ os) job share where
  delivered := List.mem_append_left _ h.delivered
  jobId := h.jobId
  batch := h.batch.mono fun _ ho => List.mem_append_left _ ho

theorem FromShare.append {submission : Submission} (h : FromShare tr submission)
    (os : List PoolObs) : FromShare (tr ++ os) submission := by
  obtain ⟨job, share, hmined, rfl⟩ := h
  exact ⟨job, share, hmined.append os, rfl⟩

/-- More observations take nothing away. -/
theorem SharesSound.append (h : SharesSound s tr) (os : List PoolObs) :
    SharesSound s (tr ++ os) where
  jobs := h.jobs.mono fun _ hj => List.mem_append_left _ hj
  shares := h.shares.mono fun _ hf => hf.mono fun _ ho => List.mem_append_left _ ho
  submits submission hmem := (h.submits submission hmem).append os
  sending submission hp := (h.sending submission hp).append os

theorem sharesSound_start : SharesSound (.start cc mc) [] where
  jobs := jobsFrom_start _ _
  shares := sharesFrom_start _ _
  submits := by simp [PoolState.start]
  sending := by simp [PoolState.start]

theorem mem_of_publishedJob {cos : List ClientObs} {job : Job} {jobs : List Job}
    (h : cos.filterMap publishedJob = job :: jobs) : .published job ∈ cos := by
  have hmem : job ∈ cos.filterMap publishedJob := by simp [h]
  obtain ⟨o, ho, hjob⟩ := List.mem_filterMap.mp hmem
  cases o <;> simp only [publishedJob] at hjob <;> cases hjob
  exact ho

/-- What the threads do, as far as shares are concerned. -/
theorem SharesSound.miner_step {j : MinerInput} {miner : MinerState} {mos : List MinerObs}
    (h : SharesSound s tr) (hpub : ∀ job, j = .publish job → .client (.published job) ∈ tr)
    (hmos : ∀ o ∈ mos, .miner o ∈ tr) (hm : minerStep mc s.miner j = some (miner, mos)) :
    SharesSound { s with miner } tr :=
  { h with
    jobs := jobsFrom_step h.jobs hpub hm
    shares := sharesFrom_step h.shares hmos hm }

theorem sharesSound_step (h : SharesSound s tr) (hs : poolStep cc mc s i = some (s', os)) :
    SharesSound s' (tr ++ os) := by
  have hgrown := h.append os
  cases poolMoves_of_step hs with
  | client _ _ _ _ => exact { hgrown with }
  | @publish j client cos job jobs miner mos _ _ _ hj hm =>
      have hpub : ClientObs.published job ∈ cos := mem_of_publishedJob hj
      have hminer := hgrown.miner_step (fun job' heq => by cases heq; simp [hpub])
        (fun o ho => by simp [ho]) hm
      exact { hminer with }
  | @miner j miner mos hpub _ hm =>
      exact hgrown.miner_step (fun job hj => absurd hj (hpub job)) (fun o ho => by simp [ho]) hm
  | sendEvent _ _ _ => exact { hgrown with }
  | recvSubmit _ hq _ _ =>
      exact { hgrown with submits := fun sub hmem => hgrown.submits sub (by simp [hq, hmem]) }
  | recvEvent hp _ => exact { hgrown with sending := by simp [hp] }
  | @recvShare found rest hp hq =>
      have hm : minerStep mc s.miner .pop
          = some ({ s.miner with mined := rest }, [.popped found]) := by simp [minerStep, hq]
      have hpop := hgrown.miner_step (by simp) (by simp) hm
      have hmem : found ∈ s.miner.mined := by simp [hq]
      refine { hpop with sending := ?_ }
      intro submission heq
      obtain rfl : Submission.ofShare found.share = submission := by simpa using heq
      obtain ⟨hdelivered, hid⟩ := hgrown.jobs.mined found hmem
      exact ⟨found.job, found.share, ⟨hdelivered, hid, hgrown.shares.mined found hmem⟩, rfl⟩
  | shutdown _ => exact { hgrown with sending := by simp }
  | submitLost _ _ => exact { hgrown with sending := by simp }
  | @submitSent submission hp _ =>
      refine { hgrown with sending := by simp, submits := fun sub hmem => ?_ }
      rcases List.mem_append.mp hmem with hm | hm
      · exact hgrown.submits sub hm
      · obtain rfl := List.mem_singleton.mp hm
        exact hgrown.sending _ hp

theorem sharesSound_of_run {is : List PoolInput} {ok : PoolState → PoolInput → Prop}
    (h : Run (poolStep cc mc) ok (.start cc mc) is s tr) : SharesSound s tr :=
  h.invariant sharesSound_start fun hsound _ hs => sharesSound_step hsound hs

/-- A submit line of the system is for the head of the submit queue. -/
theorem submit_of_poolStep {sid line : String} {id : UInt64} {submission : Submission}
    {pre post : List PoolObs} (hs : poolStep cc mc s i = some (s', os))
    (hos : os = pre ++ .client (.submit sid id submission line) :: post) :
    pre = [] ∧ submission ∈ s.submits ∧ s.client.phase.sessionId = some sid ∧
      line = buildSubmit sid submission id := by
  have hmem : PoolObs.client (.submit sid id submission line) ∈ os := by simp [hos]
  have hother : ∀ {j client cos}, isExchange j = false →
      clientStep cc s.client j = some (client, cos) →
        .submit sid id submission line ∉ cos := by
    intro j client cos hj hc hsub
    obtain ⟨rfl, -, -⟩ := submit_of_step hc hsub
    cases hj
  cases poolMoves_of_step hs with
  | client hj _ hc _ => simp [hother hj hc] at hmem
  | publish hj _ hc _ _ => simp [hother hj hc] at hmem
  | miner _ _ _ => simp at hmem
  | recvSubmit _ hq _ hp =>
      simp only [List.mem_singleton, PoolObs.client.injEq, ClientObs.submit.injEq] at hmem
      obtain ⟨rfl, rfl, rfl, rfl⟩ := hmem
      refine ⟨?_, by simp [hq], by rw [hp]; rfl, rfl⟩
      cases pre with
      | nil => rfl
      | cons x pre => simp at hos
  | _ => simp at hmem

end Sound

/-- A submit line, given what was observed before it: a share of a delivered
job, under the id of the session's login reply. -/
structure SubmitOfDelivered (pre : List PoolObs) (sid : String) (id : UInt64)
    (submission : Submission) (line : String) : Prop where
  share : ∃ job share, MinedOn pre job share ∧ submission = Submission.ofShare share ∧
    submission.jobId = job.jobId
  session : ∃ msg, .loginReply msg ∈ session (clientTrace pre) ∧ (loginResult msg).1 = sid
  line : line = buildSubmit sid submission id

/-- Every submit line of every run is for a job the pool delivered before. -/
theorem submits_delivered_jobs (cc : ClientConfig) (mc : MinerConfig) {is : List PoolInput}
    {s : PoolState} {tr : List PoolObs}
    (h : Run (poolStep cc mc) (fun _ _ => True) (.start cc mc) is s tr) :
    Justified (fun pre x => ∀ sid id submission line,
      x = .client (.submit sid id submission line) →
        SubmitOfDelivered pre sid id submission line) tr := by
  refine h.justified ?_
  intro is s s' tr os i hrun _ hs pre x post hos sid id submission line hx
  subst hx
  obtain ⟨rfl, hmem, hsid, hline⟩ := submit_of_poolStep hs hos
  rw [List.append_nil]
  obtain ⟨job, share, hmined, rfl⟩ := (sharesSound_of_run hrun).submits submission hmem
  obtain ⟨js, hclient⟩ := clientRun_of_poolRun hrun
  exact ⟨⟨job, share, hmined, rfl, hmined.jobId⟩, sessionId_of_run hclient hsid, hline⟩

/-! ### A share that outlives its session -/

/-- A share is on the submit queue when the connection is reset; the next
session logs in without a job and takes it. -/
def resubmitInputs : List PoolInput :=
  loginInputs ++ firstBatchInputs ++ [.miner (.offer 0), .recvShare, .submitSent]
    ++ outageInputs
    ++ [.client .check, .client (.connect (.ok ())), .client (.loginWritten (.ok ())),
      .client (.read (.line secondReplyLine)), .sendEvent, .recvSubmit]

/-- A submit line, in a session without a job of its id. -/
def staleSubmit (pre : List PoolObs) : PoolObs → Bool
  | .client (.submit _ _ submission _) =>
      (session (clientTrace pre)).all fun o =>
        (publishedJob o).all fun job => job.jobId ≠ submission.jobId
  | _ => false

theorem resubmit_exec :
    (exec (poolStep poolConfig poolMiner) (.start poolConfig poolMiner) resubmitInputs).any
      (fun r => endsWith staleSubmit r.2) = true := by
  decide +kernel

theorem submits_delivered_jobs_resubmitted :
    ∃ s tr, endsWith staleSubmit tr = true ∧
      Run (poolStep poolConfig poolMiner) (fun _ _ => True) (.start poolConfig poolMiner)
        resubmitInputs s tr ∧
      Justified (fun pre x => ∀ sid id submission line,
        x = .client (.submit sid id submission line) →
          SubmitOfDelivered pre sid id submission line) tr := by
  obtain ⟨s, tr, hrun, hstale⟩ := anyRun_of_exec_test (p := fun _ tr => endsWith staleSubmit tr)
    resubmit_exec
  exact ⟨s, tr, hstale, hrun, submits_delivered_jobs poolConfig poolMiner hrun⟩

/-- A session in which the pool delivered no job of that id submits the share
all the same. -/
theorem share_submitted_in_later_session :
    ∃ is s tr, Run (poolStep poolConfig poolMiner) (fun _ _ => True)
      (.start poolConfig poolMiner) is s tr ∧
      ∃ pre post sid id submission line,
        tr = pre ++ .client (.submit sid id submission line) :: post ∧
        ∀ job, .published job ∈ session (clientTrace pre) → job.jobId ≠ submission.jobId := by
  obtain ⟨s, tr, hrun, hstale⟩ := anyRun_of_exec_test (p := fun _ tr => endsWith staleSubmit tr)
    resubmit_exec
  obtain ⟨pre, x, rfl, hx⟩ := exists_of_endsWith hstale
  refine ⟨resubmitInputs, s, _, hrun, ?_⟩
  unfold staleSubmit at hx
  split at hx
  · next sid id submission line =>
      refine ⟨pre, [], sid, id, submission, line, rfl, fun job hjob => ?_⟩
      simpa [publishedJob] using List.all_eq_true.mp hx _ hjob
  · cases hx

/-! ## What the counters count -/

def isAccepted : StratumEvent → Bool
  | .accepted => true
  | _ => false

def isRejected : StratumEvent → Bool
  | .rejected _ => true
  | _ => false

/-- The events of accepted and rejected shares the client has sent. -/
def shareEvents (tr : List ClientObs) : List StratumEvent := tr.filterMap ClientObs.shareEvent

/-- The answers to the messages the client has handled. -/
def answers (tr : List ClientObs) : List StratumEvent := tr.filterMap ClientObs.reply

/-- The counters and the event queue add up to the events sent. -/
structure CountersSound (s : PoolState) (tr : List PoolObs) : Prop where
  accepted : s.controller.accepted + s.events.countP isAccepted
    = (shareEvents (clientTrace tr)).countP isAccepted
  rejected : s.controller.rejected + s.events.countP isRejected
    = (shareEvents (clientTrace tr)).countP isRejected

section Counters

variable {cc : ClientConfig} {mc : MinerConfig} {s s' : PoolState} {i : PoolInput}
  {tr os : List PoolObs}

/-- Steps that leave counters, event queue and reports alone. -/
theorem CountersSound.frame (h : CountersSound s tr)
    (haccepted : s'.controller.accepted = s.controller.accepted)
    (hrejected : s'.controller.rejected = s.controller.rejected)
    (hevents : s'.events = s.events) (hos : shareEvents (clientTrace os) = []) :
    CountersSound s' (tr ++ os) := by
  have happend : shareEvents (clientTrace (tr ++ os)) = shareEvents (clientTrace tr) := by
    simp only [shareEvents] at hos
    simp [shareEvents, hos]
  exact ⟨by rw [haccepted, hevents, happend, h.accepted],
    by rw [hrejected, hevents, happend, h.rejected]⟩

theorem countersSound_step (h : CountersSound s tr)
    (hs : poolStep cc mc s i = some (s', os)) : CountersSound s' (tr ++ os) := by
  cases poolMoves_of_step hs with
  | @client j client cos hj _ hc _ =>
      have hne : j ≠ .sendEvent := ne_sendEvent_of_isExchange hj
      exact h.frame rfl rfl rfl (by simp [shareEvents, shareEvent_of_step hne hc])
  | @publish j client cos job jobs miner mos hj _ hc _ _ =>
      have hne : j ≠ .sendEvent := ne_sendEvent_of_isExchange hj
      exact h.frame rfl rfl rfl (by simp [shareEvents, shareEvent_of_step hne hc])
  | miner _ _ _ => exact h.frame rfl rfl rfl (by simp [shareEvents])
  | @sendEvent event rest _ _ _ =>
      have hemitted : shareEvents (clientTrace (tr ++ [.client (.emitted event)]))
          = shareEvents (clientTrace tr) ++ if event.isShare then [event] else [] := by
        cases hshare : event.isShare <;>
          simp [shareEvents, clientTrace, PoolObs.clientOf, ClientObs.shareEvent, hshare]
      constructor
      · rw [hemitted, List.countP_append, List.countP_append, ← Nat.add_assoc, h.accepted]
        cases event <;> rfl
      · rw [hemitted, List.countP_append, List.countP_append, ← Nat.add_assoc, h.rejected]
        cases event <;> rfl
  | recvSubmit _ _ _ _ => exact h.frame rfl rfl rfl rfl
  | @recvEvent event rest _ hq =>
      rw [List.append_nil]
      constructor
      · rw [← h.accepted, hq, List.countP_cons, Nat.add_comm (List.countP _ _), ← Nat.add_assoc]
        cases event <;> rfl
      · rw [← h.rejected, hq, List.countP_cons, Nat.add_comm (List.countP _ _), ← Nat.add_assoc]
        cases event <;> rfl
  | recvShare _ _ => exact h.frame rfl rfl rfl rfl
  | shutdown _ => exact h.frame rfl rfl rfl rfl
  | submitLost _ _ => exact h.frame rfl rfl rfl rfl
  | submitSent _ _ => exact h.frame rfl rfl rfl rfl

end Counters

/-- At every point of every run the events of accepted and rejected shares of
the current session answer its messages in order, but for one that may still
be waiting; a message is answered for its keys alone; and the counters count
the events of the whole run that the controller has taken. -/
theorem share_events_answer_messages (cc : ClientConfig) (mc : MinerConfig)
    {is : List PoolInput} {s : PoolState} {tr : List PoolObs}
    (h : Run (poolStep cc mc) (fun _ _ => True) (.start cc mc) is s tr) :
    (shareEvents (session (clientTrace tr)) ++ s.client.outbox.filter StratumEvent.isShare
        = answers (session (clientTrace tr))) ∧
      (∀ msg event, replyOf msg = some event ↔
        (msg.get "id").isSome = true ∧ (msg.get "method").bind Json.asStr = none ∧
          event = match msg.get "error" with
            | none | some .null => .accepted
            | some err => .rejected (formatJsonError err)) ∧
      CountersSound s tr := by
  obtain ⟨js, hclient⟩ := clientRun_of_poolRun h
  refine ⟨(replies_of_run hclient).1, replyOf_eq_some_iff, ?_⟩
  exact h.invariant (P := CountersSound) ⟨rfl, rfl⟩ fun hsound _ hs =>
    countersSound_step hsound hs

/-! ### A message that answers nothing -/

def isSubmitLine : ClientObs → Bool
  | .submit _ _ _ _ => true
  | _ => false

/-- The pool logs the client in and sends a message with a null id. -/
def nullIdInputs : List PoolInput :=
  loginInputs ++ [.client (.read (.line nullIdLine)), .sendEvent, .recvEvent]

def countsWithoutSubmit (s : PoolState) (tr : List PoolObs) : Bool :=
  s.controller.accepted = 1 ∧ (shareEvents (session (clientTrace tr))).length = 1 ∧
    (clientTrace tr).countP isSubmitLine = 0

theorem nullId_exec :
    (exec (poolStep poolConfig poolMiner) (.start poolConfig poolMiner) nullIdInputs).any
      (fun r => countsWithoutSubmit r.1 r.2) = true := by
  decide +kernel

theorem share_events_answer_messages_null_id :
    ∃ s tr, countsWithoutSubmit s tr = true ∧
      Run (poolStep poolConfig poolMiner) (fun _ _ => True) (.start poolConfig poolMiner)
        nullIdInputs s tr ∧
      (shareEvents (session (clientTrace tr)) ++ s.client.outbox.filter StratumEvent.isShare
        = answers (session (clientTrace tr))) ∧
      CountersSound s tr := by
  obtain ⟨s, tr, hrun, hcounts⟩ := anyRun_of_exec_test (p := countsWithoutSubmit) nullId_exec
  obtain ⟨hsession, _, hcounters⟩ := share_events_answer_messages poolConfig poolMiner hrun
  exact ⟨s, tr, hcounts, hrun, hsession, hcounters⟩

/-- A session in which nothing was submitted counts an accepted share. -/
theorem null_id_counts_as_accepted :
    ∃ is s tr, Run (poolStep poolConfig poolMiner) (fun _ _ => True)
      (.start poolConfig poolMiner) is s tr ∧
      (session (clientTrace tr)).countP isSubmitLine
        < (shareEvents (session (clientTrace tr))).length ∧
      (clientTrace tr).countP isSubmitLine < s.controller.accepted := by
  obtain ⟨s, tr, hrun, hcounts⟩ := anyRun_of_exec_test (p := countsWithoutSubmit) nullId_exec
  obtain ⟨haccepted, hevents, hsubmits⟩ := of_decide_eq_true hcounts
  have hsession : (session (clientTrace tr)).countP isSubmitLine
      ≤ (clientTrace tr).countP isSubmitLine := (session_sublist _).countP_le
  exact ⟨nullIdInputs, s, tr, hrun, by omega, by omega⟩

end LiteXmr.Pool
