/-
LiteXmr.Controller.DaemonReportTheorems — what becomes of a share in solo
mode, over every run of the polling task, the threads and the submit loop.

* `shares_accounted` — every share taken from the queue is counted once, as
  accepted or as rejected, or is the one that is being dealt with. What was
  accepted is what the daemon has said yes to.
* `share_decided_by_template` — the template of a share is always found: it is
  in the map before its job is published and never leaves it. So a share is
  turned down without a call only for the template itself, when that is no
  text of at least 43 bytes; otherwise the daemon reads the template with the
  share's nonce in it out of the request.
-/
import LiteXmr.Controller.BlockTemplateTheorems
import LiteXmr.Controller.DaemonModeTheorems
import LiteXmr.Daemon.RpcClient
import LiteXmr.Json.WriteTheorems

namespace LiteXmr.Daemon

open Lts

/-! ## Counting shares -/

def isPopped : DaemonObs → Bool
  | .miner (.popped _) => true
  | _ => false

/-- `submit_block` has come back with this result. -/
def isAnswer (ok : Bool) : DaemonInput → Bool
  | .submitted result => result == ok
  | _ => false

/-- The shares the loop has in hand. -/
def SubmitterPhase.held : SubmitterPhase → Nat
  | .looking _ | .submitting _ => 1
  | _ => 0

/-- The calls that have not come back. -/
def SubmitterPhase.calls : SubmitterPhase → Nat
  | .submitting _ => 1
  | _ => 0

/-- The counters against what was taken from the queue, what was submitted and
what the daemon said. -/
structure Accounted (is : List DaemonInput) (s : DaemonState) (tr : List DaemonObs) : Prop where
  accepted : s.accepted = is.countP (isAnswer true)
  submitted : tr.countP isSubmitBlock
    = is.countP (isAnswer true) + is.countP (isAnswer false) + s.submitter.calls
  popped : tr.countP isPopped = s.accepted + s.rejected + s.submitter.held

section Accounted

variable {mc : MinerConfig} {s s' : DaemonState} {i : DaemonInput} {is : List DaemonInput}
  {tr os : List DaemonObs}

theorem popped_of_minerStep {miner miner' : MinerState} {j : MinerInput} {mos : List MinerObs}
    (hj : j ≠ .pop) (h : minerStep mc miner j = some (miner', mos)) :
    (mos.map DaemonObs.miner).countP isPopped = 0 := by
  have hcache : ∀ os : List CacheObs,
      ((os.map MinerObs.cache).map DaemonObs.miner).countP isPopped = 0 := by
    intro os
    simp [List.countP_eq_zero, isPopped]
  cases minerMoves_of_step h with
  | pop _ => exact absurd rfl hj
  | readNewVm _ _ _ => exact hcache _
  | cache _ _ => exact hcache _
  | newVm _ _ _ _ _ => simp [isPopped, List.countP_eq_zero]
  | noVm _ _ _ => exact hcache _
  | _ => rfl

theorem submits_of_miner (mos : List MinerObs) :
    (mos.map DaemonObs.miner).countP isSubmitBlock = 0 := by
  simp [List.countP_eq_zero, isSubmitBlock]

/-- A step that the counters and the loop have no part in. -/
theorem Accounted.frame (h : Accounted is s tr) (hi : ∀ ok, isAnswer ok i = false)
    (hsubmitter : s'.submitter = s.submitter) (haccepted : s'.accepted = s.accepted)
    (hrejected : s'.rejected = s.rejected) (hpopped : os.countP isPopped = 0)
    (hsubmits : os.countP isSubmitBlock = 0) : Accounted (is ++ [i]) s' (tr ++ os) where
  accepted := by simp [haccepted, h.accepted, hi]
  submitted := by simp [hsubmitter, h.submitted, hsubmits, hi]
  popped := by simp [hsubmitter, haccepted, hrejected, h.popped, hpopped]

/-- The answer to a call is counted, and the loop goes on. -/
theorem submitted_of_step {ok : Bool} (h : daemonStep mc s (.submitted ok) = some (s', os)) :
    os = [] ∧ (∃ found, s.submitter = .submitting found) ∧ s'.submitter = .selecting ∧
      s'.accepted = s.accepted + (if ok then 1 else 0) ∧
      s'.rejected = s.rejected + (if ok then 0 else 1) := by
  simp only [daemonStep] at h
  split at h
  · next found hp =>
      cases ok <;> cases h <;> exact ⟨rfl, ⟨found, hp⟩, rfl, rfl, rfl⟩
  · cases h

theorem accounted_step (h : Accounted is s tr) (hs : daemonStep mc s i = some (s', os)) :
    Accounted (is ++ [i]) s' (tr ++ os) := by
  cases daemonMoves_of_step hs with
  | failed => exact h.frame (fun _ => rfl) rfl rfl rfl rfl rfl
  | refused _ _ => exact h.frame (fun _ => rfl) rfl rfl rfl rfl rfl
  | received _ _ => exact h.frame (fun _ => rfl) rfl rfl rfl rfl rfl
  | insert _ _ => exact h.frame (fun _ => rfl) rfl rfl rfl rfl rfl
  | noTemplate _ _ => exact h.frame (fun _ => rfl) rfl rfl rfl rfl rfl
  | sameJob _ _ => exact h.frame (fun _ => rfl) rfl rfl rfl rfl rfl
  | publish _ _ hm =>
      exact h.frame (fun _ => rfl) rfl rfl rfl (popped_of_minerStep (by simp) hm)
        (submits_of_miner _)
  | miner _ hpop hm =>
      exact h.frame (fun _ => rfl) rfl rfl rfl (popped_of_minerStep hpop hm) (submits_of_miner _)
  | recvShare hp _ =>
      have hsubmitted := h.submitted
      have hpopped := h.popped
      simp only [hp, SubmitterPhase.calls, SubmitterPhase.held] at hsubmitted hpopped
      exact
        { accepted := by simp [h.accepted, isAnswer]
          submitted := by simp [hsubmitted, isAnswer, isSubmitBlock, SubmitterPhase.calls]
          popped := by simp [hpopped, isPopped, SubmitterPhase.held] }
  | rejected hp =>
      have hsubmitted := h.submitted
      have hpopped := h.popped
      simp only [hp, SubmitterPhase.calls, SubmitterPhase.held] at hsubmitted hpopped
      exact
        { accepted := by simp [h.accepted, isAnswer]
          submitted := by simp [hsubmitted, isAnswer, SubmitterPhase.calls]
          popped := by simp [hpopped, SubmitterPhase.held, Nat.add_assoc] }
  | submit hp _ _ =>
      have hsubmitted := h.submitted
      have hpopped := h.popped
      simp only [hp, SubmitterPhase.calls, SubmitterPhase.held] at hsubmitted hpopped
      exact
        { accepted := by simp [h.accepted, isAnswer]
          submitted := by simp [hsubmitted, isAnswer, isSubmitBlock, SubmitterPhase.calls]
          popped := by simp [hpopped, isPopped, SubmitterPhase.held] }
  | @submitted found ok _ _ hp =>
      obtain ⟨-, -, hselecting, haccepted, hrejected⟩ := submitted_of_step hs
      have hsubmitted := h.submitted
      have hpopped := h.popped
      simp only [hp, SubmitterPhase.calls, SubmitterPhase.held] at hsubmitted hpopped
      refine ⟨?_, ?_, ?_⟩
      · rw [haccepted, h.accepted]
        cases ok <;> simp [isAnswer]
      · cases ok <;> simp [hsubmitted, isAnswer, SubmitterPhase.calls] <;> omega
      · rw [haccepted, hrejected]
        cases ok <;> simp [hpopped, SubmitterPhase.held] <;> omega
  | shutdown hp =>
      have hsubmitted := h.submitted
      have hpopped := h.popped
      simp only [hp, SubmitterPhase.calls, SubmitterPhase.held] at hsubmitted hpopped
      exact
        { accepted := by simp [h.accepted, isAnswer]
          submitted := by simp [hsubmitted, isAnswer, SubmitterPhase.calls]
          popped := by simp [hpopped, SubmitterPhase.held] }

end Accounted

/-- Every share that is taken from the queue is counted once. -/
theorem shares_accounted (mc : MinerConfig) {is : List DaemonInput} {s : DaemonState}
    {tr : List DaemonObs}
    (h : Run (daemonStep mc) (fun _ _ => True) (.start mc.threadCount) is s tr) :
    Accounted is s tr := by
  induction h with
  | nil => exact ⟨rfl, rfl, rfl⟩
  | snoc _ _ hs ih => exact accounted_step ih hs

/-- A share that is accepted. -/
theorem shares_accounted_solo : ∃ is s tr,
    Run (daemonStep soloMiner) (fun _ _ => True) (.start 1) is s tr ∧ s.accepted = 1 ∧
      Accounted is s tr := by
  have hexec : (exec (daemonStep soloMiner) soloKept
      (soloShareInputs ++ [.lookup, .submitted true])).any
        (fun r => decide (r.1.accepted = 1)) = true := by decide +kernel
  obtain ⟨s, tr, hrun, haccepted⟩ := anyRun_of_exec_test
    (p := fun (s : DaemonState) _ => decide (s.accepted = 1)) hexec
  have hall := soloRun_start.any.append hrun
  exact ⟨_, s, _, hall, of_decide_eq_true haccepted, shares_accounted soloMiner hall⟩

/-! ## The template of a share -/

/-- Every share of a batch is that of a slot. -/
theorem mineRounds_share (hash : Bytes → Hash) (job : Job) (T : UInt32) (fuel : Nat) :
    ∀ (remaining : Nat) (nonce : UInt32) (blobs : List Bytes),
      ∀ share ∈ (mineRounds hash job T fuel remaining nonce blobs).shares,
        ∃ slot, shareOf hash job slot = some share := by
  have hround : ∀ (count : Nat) (nonce : UInt32) (blobs : List Bytes),
      ∀ share ∈ (mineRound hash job T count nonce blobs).shares,
        ∃ slot, shareOf hash job slot = some share := by
    intro count nonce blobs share hmem
    simp only [mineRound] at hmem
    split at hmem
    · simp at hmem
    · obtain ⟨slot, _, hshare⟩ := List.mem_filterMap.mp hmem
      exact ⟨slot, hshare⟩
  induction fuel with
  | zero => simp [mineRounds]
  | succ fuel ih =>
      intro remaining nonce blobs share hmem
      simp only [mineRounds] at hmem
      split at hmem
      · simp at hmem
      · split at hmem
        · exact hround _ _ _ share hmem
        · rcases List.mem_append.mp hmem with hm | hm
          · exact hround _ _ _ share hm
          · exact ih _ _ _ share hm

/-- The nonces of a batch are written the way the threads write them. -/
def NoncesWritten : MinerObs → Prop
  | .batch _ _ _ _ _ result => ∀ share ∈ result.shares, ∃ n, share.nonce = formatNonce n
  | _ => True

theorem nonce_of_fromBatch {found : Found} (h : FromBatch NoncesWritten found) :
    ∃ n, found.share.nonce = formatNonce n := by
  obtain ⟨_, _, _, _, _, hwritten, hmem⟩ := h
  exact hwritten _ hmem

theorem noncesWritten_of_step {mc : MinerConfig} {miner miner' : MinerState} {i : MinerInput}
    {mos : List MinerObs} (h : minerStep mc miner i = some (miner', mos)) :
    ∀ o ∈ mos, NoncesWritten o := by
  intro o ho
  unfold NoncesWritten
  split
  · next w job vm nonce blobs result =>
      obtain ⟨pre, post, hos⟩ := List.append_of_mem ho
      obtain ⟨-, -, -, -, -, rfl⟩ := batch_of_step h hos
      intro share hmem
      obtain ⟨slot, hshare⟩ := mineRounds_share _ _ _ _ _ _ _ share hmem
      exact ⟨slot.2, by rw [(shareOf_eq_some hshare).2]⟩
  · trivial

/-- Whatever is looked up is in the map, and whatever is in the map came with
a response. -/
structure Answerable (s : DaemonState) (tr : List DaemonObs) : Prop where
  jobs : JobsFrom (fun job => (s.templates job.jobId).isSome) s.miner
  shares : SharesFrom (FromBatch NoncesWritten) s.miner
  received : ∀ job, s.poller = .received job → Served tr job
  kept : ∀ job, s.poller = .kept job → (s.templates job.jobId).isSome
  looking : ∀ found, s.submitter = .looking found →
    (s.templates found.share.jobId).isSome ∧ FromBatch NoncesWritten found
  templates : ∀ id template, s.templates id = some template → ∃ result job,
    .response result ∈ tr ∧ getBlockTemplate result = some job ∧ job.jobId = id ∧
      result.blocktemplateBlob = template

section Answerable

variable {mc : MinerConfig} {s s' : DaemonState} {i : DaemonInput} {tr os : List DaemonObs}

theorem Answerable.append (h : Answerable s tr) (os : List DaemonObs) :
    Answerable s (tr ++ os) :=
  { h with
    received := fun job hp => (h.received job hp).append os
    templates := fun id template ht => by
      obtain ⟨result, job, hmem, hrest⟩ := h.templates id template ht
      exact ⟨result, job, List.mem_append_left _ hmem, hrest⟩ }

theorem answerable_start (T : UInt32) : Answerable (.start T) [] where
  jobs := jobsFrom_start _ T
  shares := sharesFrom_start _ T
  received := by simp [DaemonState.start]
  kept := by simp [DaemonState.start]
  looking := by simp [DaemonState.start]
  templates := by simp [DaemonState.start]

theorem Answerable.miner_step {j : MinerInput} {miner : MinerState} {mos : List MinerObs}
    (h : Answerable s tr)
    (hpub : ∀ job, j = .publish job → (s.templates job.jobId).isSome)
    (hm : minerStep mc s.miner j = some (miner, mos)) : Answerable { s with miner } tr :=
  { h with
    jobs := jobsFrom_step h.jobs hpub hm
    shares := sharesFrom_step h.shares (noncesWritten_of_step hm) hm }

/-- A new template is one more to find. -/
theorem isSome_update {templates : String → Option String} {id : String}
    (h : (templates id).isSome) (id' template : String) :
    (Function.update templates id' (some template) id).isSome := by
  rw [Function.update_apply]
  split
  · rfl
  · exact h

theorem Answerable.insert {job : Job} {template : String} (h : Answerable s tr)
    (hp : s.poller = .received job) (ht : job.blockTemplateBlob = some template) :
    Answerable
      { s with
        poller := .kept job
        templates := Function.update s.templates job.jobId (some template) } tr where
  jobs := h.jobs.mono fun _ hj => isSome_update hj _ _
  shares := h.shares
  received := by simp
  kept := by
    intro job' heq
    obtain rfl : job = job' := by simpa using heq
    simp
  looking found hl := ⟨isSome_update (h.looking found hl).1 _ _, (h.looking found hl).2⟩
  templates := by
    intro id template' hid
    simp only [Function.update_apply] at hid
    split at hid
    · next heq =>
        cases hid
        obtain ⟨result, hmem, hjob⟩ := h.received job hp
        obtain ⟨hblob, -⟩ := blobs_of_getBlockTemplate hjob
        rw [ht] at hblob
        exact ⟨result, job, hmem, hjob, heq.symm, (Option.some.inj hblob).symm⟩
    · exact h.templates id template' hid

theorem answerable_step (h : Answerable s tr) (hs : daemonStep mc s i = some (s', os)) :
    Answerable s' (tr ++ os) := by
  have hgrown := h.append os
  cases daemonMoves_of_step hs with
  | failed => exact hgrown
  | refused _ _ => exact hgrown
  | @received result job _ hj =>
      refine { hgrown with received := ?_, kept := by simp }
      intro job' heq
      obtain rfl : job = job' := by simpa using heq
      exact ⟨result, by simp, hj⟩
  | insert hp ht => exact hgrown.insert hp ht
  | @noTemplate job hp ht =>
      obtain ⟨template, ht'⟩ := (h.received job hp).template
      rw [ht] at ht'
      cases ht'
  | sameJob _ _ => exact { hgrown with received := by simp, kept := by simp }
  | @publish job miner mos hp _ hm =>
      have hminer := hgrown.miner_step
        (fun job' heq => by cases heq; exact hgrown.kept job hp) hm
      exact { hminer with received := by simp, kept := by simp }
  | @miner j miner mos hpub _ hm =>
      exact hgrown.miner_step (fun job hj => absurd hj (hpub job)) hm
  | @recvShare found rest _ hq =>
      have hm : minerStep mc s.miner .pop
          = some ({ s.miner with mined := rest }, [.popped found]) := by simp [minerStep, hq]
      have hpop := hgrown.miner_step (by simp) hm
      have hmem : found ∈ s.miner.mined := by simp [hq]
      refine { hpop with looking := ?_ }
      intro found' heq
      obtain rfl : found = found' := by simpa using heq
      obtain ⟨hjob, hid⟩ := hgrown.jobs.mined found hmem
      exact ⟨by rw [hid]; exact hjob, hgrown.shares.mined found hmem⟩
  | rejected _ => exact { hgrown with looking := by simp }
  | submit _ _ _ => exact { hgrown with looking := by simp }
  | submitted _ => exact { hgrown with looking := by simp }
  | shutdown _ => exact { hgrown with looking := by simp }

theorem answerable_of_run {is : List DaemonInput} {T : UInt32}
    {ok : DaemonState → DaemonInput → Prop} (h : Run (daemonStep mc) ok (.start T) is s tr) :
    Answerable s tr :=
  h.invariant (answerable_start T) fun hanswerable _ hs => answerable_step hanswerable hs

end Answerable

/-! ## The requests -/

theorem wellFormed_rpcMessage (method : String) {params : Json}
    (h : JsonText.WellFormed params) :
    JsonText.WellFormed (.object [("jsonrpc", .string "2.0"), ("id", .string "0"),
      ("method", .string method), ("params", params)]) := by
  refine .object (by simp) ?_
  simp only [List.forall_mem_cons]
  exact ⟨.string _, .string _, .string _, h, by simp⟩

/-- A request is read as its method and its parameters. -/
theorem read_rpcBody (method : String) {params : Json} (h : JsonText.WellFormed params) :
    ∃ msg, JsonText.read (rpcBody method params) = some msg ∧
      msg.get "method" = some (.string method) ∧
      msg.get "params" = some (JsonText.ordered params) := by
  have hwf := wellFormed_rpcMessage method h
  refine ⟨_, JsonText.read_toText hwf, ?_, ?_⟩
  all_goals
    rw [JsonText.get_ordered hwf]
    simp [Json.get, Json.lookup, JsonText.ordered]

/-- The daemon is asked for a template for the wallet. -/
theorem read_blockTemplateBody (client : DaemonRpcClient) :
    ∃ msg params, JsonText.read client.blockTemplateBody = some msg ∧
      msg.get "method" = some (.string "get_block_template") ∧
      msg.get "params" = some params ∧
      params.get "wallet_address" = some (.string client.wallet) ∧
      params.get "reserve_size" = some (.number (.posInt 0)) := by
  have hwf : JsonText.WellFormed (.object
      [("wallet_address", .string client.wallet), ("reserve_size", .number (.posInt 0))]) := by
    refine .object (by simp) ?_
    simp only [List.forall_mem_cons]
    exact ⟨.string _, .posInt 0, by simp⟩
  obtain ⟨msg, hread, hmethod, hparams⟩ := read_rpcBody "get_block_template" hwf
  refine ⟨msg, _, hread, hmethod, hparams, ?_, ?_⟩
  all_goals
    rw [JsonText.get_ordered hwf]
    simp [Json.get, Json.lookup, JsonText.ordered]

/-- The daemon reads a call of `submit_block` with this block in the request. -/
def AsksFor (block : Bytes) (body : String) : Prop :=
  ∃ msg text, JsonText.read body = some msg ∧ msg.get "method" = some (.string "submit_block") ∧
    msg.get "params" = some (.array [.string text]) ∧ Base16.decode text = some block

theorem asksFor_submitBlockBody {text : String} {block : Bytes}
    (h : Base16.decode text = some block) : AsksFor block (submitBlockBody text) := by
  obtain ⟨msg, hread, hmethod, hparams⟩ :=
    read_rpcBody "submit_block" (.array (List.forall_mem_singleton.mpr (.string text)))
  exact ⟨msg, text, hread, hmethod, hparams, h⟩

/-! ## The decision on a share -/

/-- The template text can take a nonce. -/
def TakesNonce (templateHex : String) : Prop := ∃ len, 43 ≤ len ∧ IsHexOf len templateHex

/-- What the loop does with the share it has in hand is decided by the template
that came with a response under the share's job id. -/
theorem share_decided_by_template (mc : MinerConfig) {is : List DaemonInput}
    {s : DaemonState} {tr : List DaemonObs} {found : Found}
    (h : Run (daemonStep mc) (fun _ _ => True) (.start mc.threadCount) is s tr)
    (hp : s.submitter = .looking found) :
    ∃ result job, .response result ∈ tr ∧ getBlockTemplate result = some job ∧
      job.jobId = found.share.jobId ∧
      (¬ TakesNonce result.blocktemplateBlob → daemonStep mc s .lookup
        = some ({ s with submitter := .selecting, rejected := s.rejected + 1 }, [])) ∧
      (TakesNonce result.blocktemplateBlob → ∃ template nonce text,
        Base16.decode result.blocktemplateBlob = some template ∧
        found.share.nonce = formatNonce nonce ∧
        daemonStep mc s .lookup
          = some ({ s with submitter := .submitting found }, [.submitBlock found text]) ∧
        AsksFor (stamp template nonce) (submitBlockBody text)) := by
  have hanswerable := answerable_of_run h
  obtain ⟨hkept, hnonce⟩ := hanswerable.looking found hp
  obtain ⟨nonce, hnonce⟩ := nonce_of_fromBatch hnonce
  obtain ⟨templateHex, htemplate⟩ := Option.isSome_iff_exists.mp hkept
  obtain ⟨result, job, hmem, hjob, hid, rfl⟩ := hanswerable.templates _ _ htemplate
  refine ⟨result, job, hmem, hjob, hid, fun hshort => ?_, fun hlong => ?_⟩
  · have hnone : blockTemplateWithNonce result.blocktemplateBlob found.share.nonce = none :=
      (blockTemplateWithNonce_eq_none_iff _ _).mpr fun hboth => hshort hboth.1
    simp [daemonStep, hp, htemplate, hnone]
  · obtain ⟨len, hlen, hhex⟩ := hlong
    obtain ⟨template, hdecode, rfl⟩ := isHexOf_iff.mp hhex
    obtain ⟨text, hblock, hbytes⟩ := decode_blockTemplateWithNonce hdecode hlen nonce
    rw [← hnonce] at hblock
    exact ⟨template, nonce, text, hdecode, hnonce, by simp [daemonStep, hp, htemplate, hblock],
      asksFor_submitBlockBody hbytes⟩

def isLooking : SubmitterPhase → Bool
  | .looking _ => true
  | _ => false

def isResponse : DaemonObs → Bool
  | .response _ => true
  | _ => false

/-- The share of the only response. -/
theorem share_decided_by_template_solo : ∃ s found template nonce text,
    s.submitter = .looking found ∧
      Base16.decode soloResult.blocktemplateBlob = some template ∧
      daemonStep soloMiner s .lookup
        = some ({ s with submitter := .submitting found }, [.submitBlock found text]) ∧
      AsksFor (stamp template nonce) (submitBlockBody text) := by
  have hexec : (exec (daemonStep soloMiner) soloKept soloShareInputs).any
      (fun r => isLooking r.1.submitter && r.2.all fun o => !isResponse o) = true := by
    decide +kernel
  obtain ⟨s, tr, hrun, htest⟩ := anyRun_of_exec_test
    (p := fun (s : DaemonState) tr => isLooking s.submitter && tr.all fun o => !isResponse o) hexec
  obtain ⟨hlooking, hsilent⟩ := Bool.and_eq_true_iff.mp htest
  obtain ⟨found, hp⟩ : ∃ found, s.submitter = .looking found := by
    unfold isLooking at hlooking
    split at hlooking
    · next found hp => exact ⟨found, hp⟩
    · cases hlooking
  obtain ⟨result, _, hmem, _, _, -, htakes⟩ :=
    share_decided_by_template soloMiner (soloRun_start.any.append hrun) hp
  have hresult : result = soloResult := by
    rcases List.mem_append.mp hmem with hmem | hmem
    · cases List.mem_singleton.mp hmem
      rfl
    · have := List.all_eq_true.mp hsilent _ hmem
      cases this
  subst hresult
  have hzeros : TakesNonce soloResult.blocktemplateBlob :=
    ⟨43, Nat.le_refl 43, isHexOf_iff.mpr ⟨_, Base16.decode_encode _, List.length_replicate⟩⟩
  obtain ⟨template, nonce, text, hdecode, -, hstep, hasks⟩ := htakes hzeros
  exact ⟨s, found, template, nonce, text, hp, hdecode, hstep, hasks⟩

end LiteXmr.Daemon
