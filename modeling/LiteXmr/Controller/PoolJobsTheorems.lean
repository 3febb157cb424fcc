/-
LiteXmr.Controller.PoolJobsTheorems — the jobs that are published.

A job reaches the job channel on three ways: in the login reply, by `job` and
by `mining.notify`. `Delivers` says which line brings which job, in terms of
the fields of the message; a step publishes a job exactly when its line
delivers one (`publishesAs_of_step`), and any other line leaves the channel as
it is.

`published_jobs` puts this together over the runs of the whole system: the
published jobs are those of the `NewJob` events, one for one and in order; the
channel holds the last of them; and all of them are sound.
-/
import LiteXmr.Controller.PoolModeTheorems
import LiteXmr.Controller.PoolReportTheorems
import LiteXmr.Job.JobTheorems

namespace LiteXmr.Pool

open Lts Stratum

/-! ## Messages with a job -/

/-- A notification of a job. -/
def JobOfMessage (msg : Json) (job : Job) : Prop :=
  ((msg.get "method").bind Json.asStr = some "job" ∧
    ∃ obj, msg.get "params" = some obj ∧ Job.C3poolJob obj job) ∨
  ((msg.get "method").bind Json.asStr = some "mining.notify" ∧
    ∃ params, (msg.get "params").bind Json.asArray = some params ∧ Job.NotifyJob params job)

/-- A login reply with a job. -/
def JobOfLogin (msg : Json) (job : Job) : Prop :=
  ∃ result obj, (msg.get "result").bind Json.asObject = some result ∧
    Json.lookup "job" result = some obj ∧ Job.C3poolJob obj job

theorem ofJob_eq_newJob_iff {found : Option Job} {job : Job} :
    Handled.ofJob found = .newJob job ↔
      found = some job ∧ Algorithms.isSupported job.algo = true := by
  cases found with
  | none => simp [Handled.ofJob]
  | some other =>
      by_cases hother : Algorithms.isSupported other.algo = true
      · simp only [Handled.ofJob, hother, if_true, Handled.newJob.injEq, Option.some.injEq]
        exact ⟨fun h => ⟨h, h ▸ hother⟩, fun h => h.1⟩
      · simp only [Handled.ofJob, if_neg hother, reduceCtorEq, Option.some.injEq, false_iff]
        rintro ⟨rfl, hjob⟩
        exact hother hjob

theorem ofJob_ne_reply {found : Option Job} {event : StratumEvent} :
    Handled.ofJob found ≠ .reply event := by
  unfold Handled.ofJob
  split
  · split <;> simp
  · simp

theorem handleMsg_eq_newJob_iff {msg : Json} {job : Job} :
    handleMsg msg = .newJob job ↔ JobOfMessage msg job := by
  unfold handleMsg JobOfMessage
  cases hmethod : (msg.get "method").bind Json.asStr with
  | none =>
      simp only [reduceCtorEq, false_and, or_false, iff_false]
      split
      · simp
      · split <;> simp
  | some method =>
      simp only [Option.some.injEq]
      by_cases hjob : method = "job"
      · subst hjob
        have hne : ("job" : String) ≠ "mining.notify" := by decide
        simp only [if_true, true_and, hne, false_and, or_false]
        rw [ofJob_eq_newJob_iff, Option.bind_eq_some_iff]
        constructor
        · rintro ⟨⟨obj, hobj, hfrom⟩, halgo⟩
          exact ⟨obj, hobj, Job.fromC3poolJob_iff.mp ⟨hfrom, halgo⟩⟩
        · rintro ⟨obj, hobj, hc3pool⟩
          obtain ⟨hfrom, halgo⟩ := Job.fromC3poolJob_iff.mpr hc3pool
          exact ⟨⟨obj, hobj, hfrom⟩, halgo⟩
      · by_cases hnotify : method = "mining.notify"
        · subst hnotify
          simp only [hjob, if_false, if_true, false_and, true_and, false_or]
          rw [ofJob_eq_newJob_iff, Option.bind_eq_some_iff]
          constructor
          · rintro ⟨⟨params, hparams, hfrom⟩, halgo⟩
            exact ⟨params, hparams, Job.fromNotify_iff.mp ⟨hfrom, halgo⟩⟩
          · rintro ⟨params, hparams, hjobOf⟩
            obtain ⟨hfrom, halgo⟩ := Job.fromNotify_iff.mpr hjobOf
            exact ⟨⟨params, hparams, hfrom⟩, halgo⟩
        · simp [hjob, hnotify]

theorem loginResult_eq_newJob_iff {msg : Json} {job : Job} :
    (loginResult msg).2 = .newJob job ↔ JobOfLogin msg job := by
  unfold loginResult JobOfLogin
  cases hresult : (msg.get "result").bind Json.asObject with
  | none => simp
  | some result =>
      simp only [Option.some.injEq]
      rw [ofJob_eq_newJob_iff, Option.bind_eq_some_iff]
      constructor
      · rintro ⟨⟨obj, hobj, hfrom⟩, halgo⟩
        exact ⟨result, obj, rfl, hobj, Job.fromC3poolJob_iff.mp ⟨hfrom, halgo⟩⟩
      · rintro ⟨_, obj, rfl, hobj, hc3pool⟩
        obtain ⟨hfrom, halgo⟩ := Job.fromC3poolJob_iff.mpr hc3pool
        exact ⟨⟨obj, hobj, hfrom⟩, halgo⟩

/-! ## Lines with a job -/

/-- The line brings a job: the reply to the login, a message before it, or a
message of the session. -/
inductive Delivers (config : ClientConfig) (c : Client) : ClientInput → Job → Prop where
  | login {p : LoginProfile} {id : UInt64} {line : String} {msg : Json} {job : Job}
      (hp : c.phase = .awaitingReply p id) (hl : config.parseLine line = .ok msg)
      (hid : (msg.get "id").bind Json.asU64 = some id) (he : getJsonError msg = none)
      (hjob : JobOfLogin msg job) : Delivers config c (.read (.line line)) job
  | early {p : LoginProfile} {id : UInt64} {line : String} {msg : Json} {job : Job}
      (hp : c.phase = .awaitingReply p id) (hl : config.parseLine line = .ok msg)
      (hid : (msg.get "id").bind Json.asU64 ≠ some id) (hjob : JobOfMessage msg job) :
      Delivers config c (.read (.line line)) job
  | session {p : LoginProfile} {sid line : String} {msg : Json} {job : Job}
      (hp : c.phase = .mining p sid) (hne : Str.trim line ≠ "")
      (hl : config.parseLine (Str.trim line) = .ok msg) (hjob : JobOfMessage msg job) :
      Delivers config c (.read (.line line)) job

def publishedJobs (tr : List ClientObs) : List Job := tr.filterMap publishedJob

@[simp] theorem publishedJobs_append (tr os : List ClientObs) :
    publishedJobs (tr ++ os) = publishedJobs tr ++ publishedJobs os := List.filterMap_append

def newJobOf : StratumEvent → Option Job
  | .newJob job => some job
  | _ => none

/-- The jobs of the `NewJob` events. -/
def newJobs (events : List StratumEvent) : List Job := events.filterMap newJobOf

@[simp] theorem newJobs_append (es fs : List StratumEvent) :
    newJobs (es ++ fs) = newJobs es ++ newJobs fs := List.filterMap_append

section

variable {config : ClientConfig} {c c' : Client} {i : ClientInput} {os : List ClientObs}

theorem delivers_iff_login {p : LoginProfile} {id : UInt64} {line : String} {msg : Json}
    {job : Job} (hp : c.phase = .awaitingReply p id) (hl : config.parseLine line = .ok msg)
    (hid : (msg.get "id").bind Json.asU64 = some id) (he : getJsonError msg = none) :
    Delivers config c (.read (.line line)) job ↔ JobOfLogin msg job := by
  refine ⟨fun h => ?_, .login hp hl hid he⟩
  cases h with
  | login hp' hl' _ _ hjob =>
      rw [hl] at hl'
      cases hl'
      exact hjob
  | early hp' hl' hid' _ =>
      rw [hp] at hp'
      rw [hl] at hl'
      cases hp'
      cases hl'
      exact absurd hid hid'
  | session hp' _ _ _ =>
      rw [hp] at hp'
      cases hp'

theorem delivers_iff_early {p : LoginProfile} {id : UInt64} {line : String} {msg : Json}
    {job : Job} (hp : c.phase = .awaitingReply p id) (hl : config.parseLine line = .ok msg)
    (hid : (msg.get "id").bind Json.asU64 ≠ some id) :
    Delivers config c (.read (.line line)) job ↔ JobOfMessage msg job := by
  refine ⟨fun h => ?_, .early hp hl hid⟩
  cases h with
  | login hp' hl' hid' _ _ =>
      rw [hp] at hp'
      rw [hl] at hl'
      cases hp'
      cases hl'
      exact absurd hid' hid
  | early _ hl' _ hjob =>
      rw [hl] at hl'
      cases hl'
      exact hjob
  | session hp' _ _ _ =>
      rw [hp] at hp'
      cases hp'

theorem delivers_iff_session {p : LoginProfile} {sid line : String} {msg : Json} {job : Job}
    (hp : c.phase = .mining p sid) (hne : Str.trim line ≠ "")
    (hl : config.parseLine (Str.trim line) = .ok msg) :
    Delivers config c (.read (.line line)) job ↔ JobOfMessage msg job := by
  refine ⟨fun h => ?_, .session hp hne hl⟩
  cases h with
  | login hp' _ _ _ _ =>
      rw [hp] at hp'
      cases hp'
  | early hp' _ _ _ =>
      rw [hp] at hp'
      cases hp'
  | session _ _ hl' hjob =>
      rw [hl] at hl'
      cases hl'
      exact hjob

/-- A line with a job is read. -/
theorem Delivers.parsed {line : String} {job : Job}
    (h : Delivers config c (.read (.line line)) job) :
    (∃ p id msg, c.phase = .awaitingReply p id ∧ config.parseLine line = .ok msg) ∨
      ∃ p sid msg, c.phase = .mining p sid ∧ Str.trim line ≠ "" ∧
        config.parseLine (Str.trim line) = .ok msg := by
  cases h with
  | login hp hl _ _ _ => exact Or.inl ⟨_, _, _, hp, hl⟩
  | early hp hl _ _ => exact Or.inl ⟨_, _, _, hp, hl⟩
  | session hp hne hl _ => exact Or.inr ⟨_, _, _, hp, hne, hl⟩

/-- A line that the session goes on without brings no job. -/
theorem not_delivers_of_skips {line : String} {job : Job} (h : Skips config c line) :
    ¬ Delivers config c (.read (.line line)) job := by
  intro hd
  rcases hd.parsed with ⟨p, id, msg, hp, _⟩ | ⟨p, sid, msg, hp, hne, hl⟩
  · cases h with
    | keepalive hp' _ | empty hp' _ | refused hp' _ _ =>
        rw [hp] at hp'
        cases hp'
  · cases h with
    | keepalive hp' _ =>
        rw [hp] at hp'
        cases hp'
    | empty _ hempty => exact hne hempty
    | refused _ hl' _ =>
        rw [hl] at hl'
        cases hl'

theorem not_delivers_of_leavesLoop {line : String} {job : Job}
    (h : LeavesLoop config c (.read (.line line))) :
    ¬ Delivers config c (.read (.line line)) job := by
  intro hd
  rcases hd.parsed with ⟨p, id, msg, hp, hl⟩ | ⟨p, sid, msg, hp, _, hl⟩
  · have hdeep := h.of_login hp
    rw [hl] at hdeep
    cases hdeep
  · rcases (h.of_mining hp).2 with hpanic | hdeep
    · obtain ⟨e, he⟩ := hpanic.refused
      rw [hl] at he
      cases he
    · rw [hl] at hdeep
      cases hdeep

theorem not_delivers_of_fails {p : LoginProfile} {e : Error} {job : Job}
    (h : Fails config c p i e) : ¬ Delivers config c i job := by
  intro hd
  cases h with
  | loginParse hp hl =>
      cases hd with
      | login _ hl' _ _ _ =>
          rw [hl] at hl'
          cases hl'
      | early _ hl' _ _ =>
          rw [hl] at hl'
          cases hl'
      | session hp' _ _ _ =>
          rw [hp] at hp'
          cases hp'
  | loginError hp hl hid he =>
      cases hd with
      | login _ hl' _ he' _ =>
          rw [hl] at hl'
          cases hl'
          rw [he] at he'
          cases he'
      | early hp' hl' hid' _ =>
          rw [hp] at hp'
          rw [hl] at hl'
          cases hp'
          cases hl'
          exact hid' hid
      | session hp' _ _ _ =>
          rw [hp] at hp'
          cases hp'
  | _ => cases hd

/-- What the client does with a handled message, where the message stands for
a job exactly when it is handled as one. -/
def PublishesAs (D : Job → Prop) (c' : Client) (os : List ClientObs) : Prop :=
  (∃ job, D job ∧ publishedJobs os = [job] ∧ c'.outbox.head? = some (.newJob job)) ∨
    ((∀ job, ¬ D job) ∧ publishedJobs os = [])

theorem publishesAs_of_handled {D : Job → Prop} {h : Handled} {o : ClientObs}
    (hD : ∀ job, D job ↔ h = .newJob job) (ho : publishedJob o = none) {more : List StratumEvent}
    (hout : c'.outbox = h.events ++ more) : PublishesAs D c' (o :: h.published) := by
  cases h with
  | newJob job =>
      refine Or.inl ⟨job, (hD job).mpr rfl, ?_, by rw [hout]; rfl⟩
      rw [publishedJobs, List.filterMap_cons_none ho]
      rfl
  | nothing =>
      refine Or.inr ⟨fun job hjob => ?_, by simp [publishedJobs, Handled.published, ho]⟩
      have := (hD job).mp hjob
      cases this
  | reply event =>
      refine Or.inr ⟨fun job hjob => ?_, by simp [publishedJobs, Handled.published, ho]⟩
      have := (hD job).mp hjob
      cases this

/-- A step publishes a job exactly when its line delivers one, and then the
event that reports it is the next to be sent. -/
theorem publishesAs_of_step (hs : clientStep config c i = some (c', os)) :
    PublishesAs (Delivers config c i) c' os := by
  have hnone : (∀ job, ¬ Delivers config c i job) → publishedJobs os = [] →
      PublishesAs (Delivers config c i) c' os := fun hd hos => Or.inr ⟨hd, hos⟩
  cases clientMoves_of_step hs with
  | loggedIn _ hp hl hid he =>
      exact publishesAs_of_handled (o := .loginReply _)
        (fun job => (delivers_iff_login hp hl hid he).trans loginResult_eq_newJob_iff.symm) rfl rfl
  | earlyMessage _ hp hl hid =>
      exact publishesAs_of_handled (o := .message _)
        (fun job => (delivers_iff_early hp hl hid).trans handleMsg_eq_newJob_iff.symm) rfl
        (List.append_nil _).symm
  | message _ hp hne hl =>
      exact publishesAs_of_handled (o := .message _)
        (fun job => (delivers_iff_session hp hne hl).trans handleMsg_eq_newJob_iff.symm) rfl
        (List.append_nil _).symm
  | skip _ _ hskip => exact hnone (fun job => not_delivers_of_skips hskip) rfl
  | panic _ hbad => exact hnone (fun job => not_delivers_of_leavesLoop (Or.inl hbad)) rfl
  | overflow _ hdeep => exact hnone (fun job => not_delivers_of_leavesLoop (Or.inr hdeep)) rfl
  | @failed p e _ _ hf =>
      refine hnone (fun job => not_delivers_of_fails hf) ?_
      rcases c.fail_cases p e with ⟨next, _, _, heq⟩ | heq <;> rw [heq] <;> rfl
  | _ => exact hnone (fun job hd => by cases hd) rfl

theorem newJobs_of_isShare {events : List StratumEvent} (h : ∀ e ∈ events, e.isShare = true) :
    newJobs events = [] := by
  rw [newJobs, List.filterMap_eq_nil_iff]
  intro e he
  have hshare := h e he
  cases e with
  | newJob job => cases hshare
  | _ => rfl

/-- What a handled message publishes it also reports. -/
theorem publishedJobs_of_handled {h : Handled} {o : ClientObs}
    (hreply : ∀ event, h = .reply event → event.isShare = true) (ho : publishedJob o = none) :
    publishedJobs (o :: h.published) = newJobs h.events := by
  rw [publishedJobs, List.filterMap_cons_none ho]
  cases h with
  | newJob job => rfl
  | nothing => rfl
  | reply event =>
      rw [newJobs_of_isShare fun e he => ?_]
      · rfl
      · obtain rfl := List.mem_singleton.mp he
        exact hreply e rfl

theorem reply_isShare_of_handleMsg {msg : Json} {event : StratumEvent}
    (h : handleMsg msg = .reply event) : event.isShare = true := by
  have hreply : replyOf msg = some event := by simp [replyOf, h]
  exact isShare_of_replyOf hreply

theorem loginResult_ne_reply {msg : Json} {event : StratumEvent} :
    (loginResult msg).2 ≠ .reply event := by
  unfold loginResult
  split
  · simp
  · exact ofJob_ne_reply

/-- One step: what was waiting and what was published has been reported or is
waiting. -/
theorem job_balance (hs : clientStep config c i = some (c', os)) :
    newJobs (emittedEvents os) ++ newJobs c'.outbox = newJobs c.outbox ++ publishedJobs os := by
  have hquiet : emittedEvents os = [] → newJobs c.outbox = [] →
      publishedJobs os = newJobs c'.outbox →
      newJobs (emittedEvents os) ++ newJobs c'.outbox = newJobs c.outbox ++ publishedJobs os := by
    intro hemitted ho hpublished
    rw [hemitted, ho, hpublished]
    rfl
  cases clientMoves_of_step hs with
  | stop => exact (List.append_nil _).symm
  | watch _ => exact (List.append_nil _).symm
  | @send event rest ho =>
      rw [ho]
      have hpublished : publishedJobs [.emitted event] = [] := rfl
      have hemitted : emittedEvents [.emitted event] = [event] := rfl
      rw [hpublished, hemitted, List.append_nil, ← newJobs_append]
      rfl
  | loggedIn ho _ _ _ _ =>
      refine hquiet (emittedEvents_silent (isSilent_loggedIn _ _)) (by rw [ho]; rfl) ?_
      rw [Client.loggedIn,
        publishedJobs_of_handled (fun event h => absurd h loginResult_ne_reply) rfl]
      simp [newJobs, newJobOf]
  | earlyMessage ho _ _ _ =>
      exact hquiet (emittedEvents_silent (isSilent_message _)) (by rw [ho]; rfl)
        (publishedJobs_of_handled (fun event h => reply_isShare_of_handleMsg h) rfl)
  | message ho _ _ _ =>
      exact hquiet (emittedEvents_silent (isSilent_message _)) (by rw [ho]; rfl)
        (publishedJobs_of_handled (fun event h => reply_isShare_of_handleMsg h) rfl)
  | @failed p e _ ho _ =>
      rcases c.fail_cases p e with ⟨next, _, _, hf⟩ | hf
      · exact hquiet (by rw [hf]; rfl) (by rw [ho]; rfl) (by rw [hf, ho]; rfl)
      · exact hquiet (by rw [hf]; rfl) (by rw [ho]; rfl) (by rw [hf]; rfl)
  | _ =>
      have ho : c.outbox = [] := by assumption
      exact hquiet rfl (congrArg newJobs ho) (congrArg newJobs ho).symm

theorem watch_value_of_minerStep {mc : MinerConfig} {m m' : MinerState} {j : MinerInput}
    {mos : List MinerObs} (hj : ∀ job, j ≠ .publish job)
    (hm : minerStep mc m j = some (m', mos)) : m'.watch.value = m.watch.value := by
  cases minerMoves_of_step hm with
  | publish _ => exact absurd rfl (hj _)
  | offer _ hsent =>
      rw [hsent, MinerState.trySend_watch]
      rfl
  | _ => rfl

end

/-! ## The job channel -/

section

variable {cc : ClientConfig} {mc : MinerConfig} {s s' : PoolState} {i : PoolInput}
  {tr os : List PoolObs}

/-- The channel after a step: the job the step publishes, or what it held. -/
theorem watch_value_of_poolStep (hs : poolStep cc mc s i = some (s', os)) :
    s'.miner.watch.value
      = ((publishedJobs (clientTrace os)).getLast?).or s.miner.watch.value := by
  cases poolMoves_of_step hs with
  | client _ _ _ hj =>
      rw [clientTrace_map_client, publishedJobs, hj]
      rfl
  | @publish _ client cos job jobs miner mos _ _ hc hj hm =>
      have honly : publishedJobs cos = [job] := by
        rcases publishesAs_of_step hc with ⟨job', _, hjob', _⟩ | ⟨_, hnone⟩
        · rw [publishedJobs, hj] at hjob' ⊢
          cases hjob'
          rfl
        · rw [publishedJobs, hj] at hnone
          cases hnone
      rw [clientTrace_append, clientTrace_map_client, clientTrace_map_miner, List.append_nil,
        honly]
      cases minerMoves_of_step hm with
      | publish _ => rfl
  | miner hpub _ hm =>
      rw [clientTrace_map_miner]
      exact watch_value_of_minerStep hpub hm
  | _ => rfl

/-- What is known of the published jobs at every point. -/
structure JobsPublished (s : PoolState) (tr : List PoolObs) : Prop where
  reported : publishedJobs (clientTrace tr)
    = newJobs (emittedEvents (clientTrace tr) ++ s.client.outbox)
  channel : s.miner.watch.value = (publishedJobs (clientTrace tr)).getLast?
  sound : ∀ job ∈ publishedJobs (clientTrace tr), job.Sound

theorem Delivers.sound {c : Client} {j : ClientInput} {job : Job} (h : Delivers cc c j job) :
    job.Sound := by
  have hmessage : ∀ {msg}, JobOfMessage msg job → job.Sound := by
    rintro msg (⟨_, obj, _, hobj⟩ | ⟨_, params, _, hparams⟩)
    · exact hobj.job.sound
    · exact hparams.job.sound
  cases h with
  | login _ _ _ _ hjob =>
      obtain ⟨_, _, _, _, hobj⟩ := hjob
      exact hobj.job.sound
  | early _ _ _ hjob => exact hmessage hjob
  | session _ _ _ hjob => exact hmessage hjob

theorem jobsPublished_start : JobsPublished (.start cc mc) [] where
  reported := rfl
  channel := by simp [PoolState.start, MinerState.start, publishedJobs, clientTrace]
  sound := fun job h => by cases h

theorem jobsPublished_step (h : JobsPublished s tr) (hs : poolStep cc mc s i = some (s', os)) :
    JobsPublished s' (tr ++ os) where
  reported := by
    rw [clientTrace_append, publishedJobs_append, emittedEvents_append]
    rcases clientStep_of_poolStep hs with ⟨_, hclient, hos⟩ | ⟨j, _, hc⟩
    · rw [hclient, hos, h.reported]
      simp [publishedJobs, emittedEvents]
    · rw [h.reported, newJobs_append, newJobs_append, newJobs_append, List.append_assoc,
        List.append_assoc, job_balance hc]
  channel := by
    rw [watch_value_of_poolStep hs, h.channel, clientTrace_append, publishedJobs_append,
      List.getLast?_append]
  sound := by
    intro job hjob
    rw [clientTrace_append, publishedJobs_append] at hjob
    rcases List.mem_append.mp hjob with hjob | hjob
    · exact h.sound job hjob
    · rcases clientStep_of_poolStep hs with ⟨_, _, hos⟩ | ⟨j, _, hc⟩
      · rw [hos] at hjob
        cases hjob
      · rcases publishesAs_of_step hc with ⟨job', hdelivers, honly, _⟩ | ⟨_, hnone⟩
        · rw [honly] at hjob
          obtain rfl := List.mem_singleton.mp hjob
          exact hdelivers.sound
        · rw [hnone] at hjob
          cases hjob

end

/-- At every point of every run the published jobs are those of the `NewJob`
events, sent or waiting, in order; the job channel holds the last of them; all
are sound. And a step of the client changes the channel exactly when it reads
a line that delivers a job: the channel then holds this job, and the event
that reports it is the next the client sends. -/
theorem published_jobs (cc : ClientConfig) (mc : MinerConfig) {is : List PoolInput}
    {s : PoolState} {tr : List PoolObs}
    (h : Run (poolStep cc mc) (fun _ _ => True) (.start cc mc) is s tr) :
    (publishedJobs (clientTrace tr) = newJobs (emittedEvents (clientTrace tr) ++ s.client.outbox) ∧
      s.miner.watch.value = (publishedJobs (clientTrace tr)).getLast? ∧
      ∀ job, s.miner.watch.value = some job → job.Sound) ∧
    ∀ i s' os, poolStep cc mc s i = some (s', os) →
      (∃ j job, i = .client j ∧ Delivers cc s.client j job ∧
        publishedJobs (clientTrace os) = [job] ∧ s'.miner.watch.value = some job ∧
          s'.client.outbox.head? = some (.newJob job)) ∨
      ((∀ j job, i = .client j → ¬ Delivers cc s.client j job) ∧
        publishedJobs (clientTrace os) = [] ∧ s'.miner.watch.value = s.miner.watch.value) := by
  have hjobs := h.invariant (P := JobsPublished) jobsPublished_start
    fun hp _ hs => jobsPublished_step hp hs
  refine ⟨⟨hjobs.reported, hjobs.channel, fun job hjob => ?_⟩, fun i s' os hs => ?_⟩
  · rw [hjobs.channel] at hjob
    exact hjobs.sound job (List.mem_of_getLast? hjob)
  · have hvalue := watch_value_of_poolStep hs
    rcases clientStep_of_poolStep hs with ⟨hne, _, hos⟩ | ⟨j, hj, hc⟩
    · rw [hos] at hvalue ⊢
      exact Or.inr ⟨fun j job hi => absurd hi (hne j), rfl, hvalue⟩
    · rcases publishesAs_of_step hc with ⟨job, hdelivers, honly, hhead⟩ | ⟨hno, hnone⟩
      · rcases hj with rfl | ⟨_, hexchange⟩
        · rw [honly] at hvalue
          exact Or.inl ⟨j, job, rfl, hdelivers, honly, hvalue, hhead⟩
        · cases hdelivers <;> cases hexchange
      · rw [hnone] at hvalue
        refine Or.inr ⟨fun k job hi => ?_, hnone, hvalue⟩
        rcases hj with rfl | ⟨hne, _⟩
        · cases hi
          exact hno job
        · exact absurd hi (hne k)

/-- The job of a login reply. -/
theorem published_jobs_login :
    ∃ s tr, Run (poolStep poolConfig poolMiner) (fun _ _ => True)
        (.start poolConfig poolMiner) loginInputs s tr ∧
      (publishedJobs (clientTrace tr)).length = 1 ∧
      s.miner.watch.value = (publishedJobs (clientTrace tr)).getLast? ∧
      ∀ job, s.miner.watch.value = some job → job.Sound := by
  have hexec : (exec (poolStep poolConfig poolMiner) (.start poolConfig poolMiner)
      loginInputs).any (fun r => decide ((publishedJobs (clientTrace r.2)).length = 1)) = true := by
    decide +kernel
  obtain ⟨s, tr, hrun, hone⟩ := anyRun_of_exec_test
    (p := fun (_ : PoolState) tr => decide ((publishedJobs (clientTrace tr)).length = 1)) hexec
  have hjobs := (published_jobs poolConfig poolMiner hrun).1
  exact ⟨s, tr, hrun, of_decide_eq_true hone, hjobs.2⟩

end LiteXmr.Pool
