/-
LiteXmr.Controller.DaemonModeTheorems — which template a solo block is built
from, over every run of the polling task, the threads and the submit loop.

`DaemonMoves` lists what a step can be. A template is kept under the id of
its job, and the id is made of the height and sixteen characters of the
hashing blob: a later response may bring another template under the same id.

* `submitted_block_of_response` — as long as no template is replaced by a
  different one while a job with the old one is still in use
  (`ReplacesTemplate`), every submitted block is the template of the very
  response the share's job was made of, with the share's nonce in it.
* `block_of_another_response` — otherwise it need not be.
-/
import LiteXmr.Controller.DaemonMode
import LiteXmr.Miner.WorkerTheorems

namespace LiteXmr.Daemon

open Lts

/-! ## What a step can be -/

inductive DaemonMoves (mc : MinerConfig) (s : DaemonState) :
    DaemonInput → DaemonState → List DaemonObs → Prop where
  | failed : DaemonMoves mc s (.response none) s []
  | refused {result : BlockTemplateResult} (hp : s.poller = .polling)
      (hj : getBlockTemplate result = none) :
      DaemonMoves mc s (.response (some result)) s [.response result]
  | received {result : BlockTemplateResult} {job : Job} (hp : s.poller = .polling)
      (hj : getBlockTemplate result = some job) :
      DaemonMoves mc s (.response (some result)) { s with poller := .received job }
        [.response result]
  | insert {job : Job} {template : String} (hp : s.poller = .received job)
      (ht : job.blockTemplateBlob = some template) :
      DaemonMoves mc s .insert
        { s with
          poller := .kept job
          templates := Function.update s.templates job.jobId (some template) } []
  | noTemplate {job : Job} (hp : s.poller = .received job)
      (ht : job.blockTemplateBlob = none) :
      DaemonMoves mc s .insert { s with poller := .kept job } []
  | sameJob {job : Job} (hp : s.poller = .kept job) (hid : job.jobId = s.lastJobId) :
      DaemonMoves mc s .publish { s with poller := .polling } []
  | publish {job : Job} {miner : MinerState} {mos : List MinerObs}
      (hp : s.poller = .kept job) (hid : job.jobId ≠ s.lastJobId)
      (hm : minerStep mc s.miner (.publish job) = some (miner, mos)) :
      DaemonMoves mc s .publish
        { s with poller := .polling, lastJobId := job.jobId, miner } (mos.map .miner)
  | miner {i : MinerInput} {miner : MinerState} {mos : List MinerObs}
      (hpub : ∀ job, i ≠ .publish job) (hpop : i ≠ .pop)
      (hm : minerStep mc s.miner i = some (miner, mos)) :
      DaemonMoves mc s (.miner i) { s with miner } (mos.map .miner)
  | recvShare {found : Found} {rest : List Found} (hp : s.submitter = .selecting)
      (hq : s.miner.mined = found :: rest) :
      DaemonMoves mc s .recvShare
        { s with miner := { s.miner with mined := rest }, submitter := .looking found }
        [.miner (.popped found)]
  | rejected {found : Found} (hp : s.submitter = .looking found) :
      DaemonMoves mc s .lookup
        { s with submitter := .selecting, rejected := s.rejected + 1 } []
  | submit {found : Found} {template blockBlob : String} (hp : s.submitter = .looking found)
      (ht : s.templates found.share.jobId = some template)
      (hb : blockTemplateWithNonce template found.share.nonce = some blockBlob) :
      DaemonMoves mc s .lookup { s with submitter := .submitting found }
        [.submitBlock found blockBlob]
  | submitted {found : Found} {ok : Bool} {accepted rejected : Nat}
      (hp : s.submitter = .submitting found) :
      DaemonMoves mc s (.submitted ok)
        { s with submitter := .selecting, accepted, rejected } []
  | shutdown (hp : s.submitter = .selecting) :
      DaemonMoves mc s .shutdown { s with submitter := .stopped } []

theorem daemonMoves_of_step {mc : MinerConfig} {s s' : DaemonState} {i : DaemonInput}
    {os : List DaemonObs} (h : daemonStep mc s i = some (s', os)) :
    DaemonMoves mc s i s' os := by
  cases i with
  | response result =>
      simp only [daemonStep] at h
      split at h
      · cases h
      · split at h
        · cases h
          exact .failed
        · next hp =>
            split at h
            · next hj =>
                cases h
                exact .refused hp hj
            · next hj =>
                cases h
                exact .received hp hj
        · cases h
  | insert =>
      simp only [daemonStep] at h
      split at h
      · cases h
      · split at h
        · next hp =>
            split at h
            · next ht =>
                cases h
                exact .insert hp ht
            · next ht =>
                cases h
                exact .noTemplate hp ht
        · cases h
  | publish =>
      simp only [daemonStep] at h
      split at h
      · cases h
      · split at h
        · next hp =>
            split at h
            · next hid =>
                cases h
                exact .sameJob hp hid
            · next hid =>
                split at h
                · next hm =>
                    cases h
                    exact .publish hp hid hm
                · cases h
        · cases h
  | miner i =>
      cases i <;> simp only [daemonStep, reduceCtorEq] at h
      case dropSender =>
        split at h
        · split at h
          · next hm =>
              cases h
              exact .miner (by simp) (by simp) hm
          · cases h
        · cases h
      all_goals
        split at h
        · next hm =>
            cases h
            exact .miner (by simp) (by simp) hm
        · cases h
  | recvShare =>
      simp only [daemonStep] at h
      split at h
      · next found rest hp hq =>
          simp only [minerStep, hq] at h
          cases h
          exact .recvShare hp hq
      · cases h
  | lookup =>
      simp only [daemonStep] at h
      split at h
      · next hp =>
          split at h
          · cases h
            exact .rejected hp
          · next hb =>
              cases h
              obtain ⟨template, ht, hblob⟩ := Option.bind_eq_some_iff.mp hb
              exact .submit hp ht hblob
      · cases h
  | submitted ok =>
      simp only [daemonStep] at h
      split at h
      · next hp =>
          split at h <;> cases h <;> exact .submitted hp
      · cases h
  | shutdown =>
      simp only [daemonStep] at h
      split at h
      · next hp =>
          cases h
          exact .shutdown hp
      · cases h

/-! ## Templates -/

/-- What a template gives to a block: its bytes before and behind the nonce. -/
def templateFrame (templateHex : String) : Option (Bytes × Bytes) :=
  match Base16.decode templateHex with
  | some template =>
      if nonceOffset + 4 > template.length then none
      else some (template.take nonceOffset, template.drop (nonceOffset + 4))
  | none => none

/-- The block is the template with four bytes from the nonce's offset on
replaced. -/
def BlockOf (templateHex nonceHex blockHex : String) : Prop :=
  ∃ template nonce, Base16.decode templateHex = some template ∧
    Base16.decode nonceHex = some nonce ∧ nonce.length = 4 ∧
    nonceOffset + 4 ≤ template.length ∧
    Base16.decode blockHex
      = some (template.take nonceOffset ++ nonce ++ template.drop (nonceOffset + 4))

section Templates

variable {a b nonceHex blockHex : String}

theorem blockTemplateWithNonce_eq (templateHex nonceHex : String) :
    blockTemplateWithNonce templateHex nonceHex =
      match templateFrame templateHex, Base16.decode nonceHex with
      | some (front, back), some nonce =>
          if nonce.length = 4 then some (Base16.encode (front ++ nonce ++ back)) else none
      | _, _ => none := by
  unfold blockTemplateWithNonce templateFrame
  cases Base16.decode templateHex with
  | none => simp
  | some template =>
      cases Base16.decode nonceHex with
      | none => simp
      | some nonce =>
          by_cases hlong : nonceOffset + 4 > template.length
          · simp [hlong]
          · by_cases hlen : nonce.length = 4
            · simp [hlong, hlen, Bytes.overwrite]
            · simp [hlong, hlen]

/-- A block depends on the template's frame only. -/
theorem blockTemplateWithNonce_congr (h : templateFrame a = templateFrame b) :
    blockTemplateWithNonce a nonceHex = blockTemplateWithNonce b nonceHex := by
  rw [blockTemplateWithNonce_eq, blockTemplateWithNonce_eq, h]

theorem blockOf_of_eq_some (h : blockTemplateWithNonce a nonceHex = some blockHex) :
    BlockOf a nonceHex blockHex := by
  unfold blockTemplateWithNonce at h
  split at h
  · next template nonce ht hn =>
      split at h
      · cases h
      · next hlen =>
          split at h
          · cases h
          · next hlong =>
              cases h
              rw [not_not] at hlen
              refine ⟨template, nonce, ht, hn, hlen, by omega, ?_⟩
              rw [Base16.decode_encode, Bytes.overwrite, hlen]
  · cases h

/-- A block has the frame of its template. -/
theorem templateFrame_of_blockOf (h : BlockOf a nonceHex blockHex) :
    templateFrame blockHex = templateFrame a := by
  obtain ⟨template, nonce, ht, _, hlen, hlong, hblock⟩ := h
  have hfront : (template.take nonceOffset).length = nonceOffset := by
    rw [List.length_take]
    omega
  have hblen : nonceOffset + 4 ≤ (template.take nonceOffset ++ nonce
      ++ template.drop (nonceOffset + 4)).length := by
    rw [List.length_append, List.length_append, hfront, hlen]
    omega
  simp only [templateFrame, ht, hblock, if_neg (Nat.not_lt.mpr hlong),
    if_neg (Nat.not_lt.mpr hblen)]
  rw [List.append_assoc, List.take_left' hfront, ← List.append_assoc,
    List.drop_left' (by rw [List.length_append, hfront, hlen])]

end Templates

/-! ## Jobs and their templates -/

/-- The job was made of a response of the daemon. -/
def Served (tr : List DaemonObs) (job : Job) : Prop :=
  ∃ result, .response result ∈ tr ∧ getBlockTemplate result = some job

/-- The template that would be looked up for the job gives its blocks. -/
def Kept (templates : String → Option String) (job : Job) : Prop :=
  ∃ template kept, job.blockTemplateBlob = some template ∧
    templates job.jobId = some kept ∧ templateFrame kept = templateFrame template

/-- The jobs whose shares can still come up for submission. -/
inductive InUse (s : DaemonState) : Job → Prop
  | watch {job : Job} (h : s.miner.watch.value = some job) : InUse s job
  | worker {w : Nat} {job : Job} (h : (s.miner.workers w).currentJob = some job) : InUse s job
  | offering {w : Nat} {found : List Found} {f : Found}
      (h : (s.miner.workers w).phase = .offering found) (hf : f ∈ found) : InUse s f.job
  | mined {f : Found} (h : f ∈ s.miner.mined) : InUse s f.job
  | looking {f : Found} (h : s.submitter = .looking f) : InUse s f.job

/-- A template is about to be replaced by a different one while a job with the
old one is still in use. -/
def ReplacesTemplate (s : DaemonState) : DaemonInput → Prop
  | .insert => ∃ job old, s.poller = .received job ∧ InUse s old ∧ old.jobId = job.jobId ∧
      old.blockTemplateBlob.bind templateFrame ≠ job.blockTemplateBlob.bind templateFrame
  | _ => False

structure DaemonSound (s : DaemonState) (tr : List DaemonObs) : Prop where
  jobs : JobsFrom (fun job => Served tr job ∧ Kept s.templates job) s.miner
  shares : SharesFrom (FromBatch fun o => .miner o ∈ tr) s.miner
  received : ∀ job, s.poller = .received job → Served tr job
  kept : ∀ job, s.poller = .kept job → Served tr job ∧ Kept s.templates job
  looking : ∀ found, s.submitter = .looking found →
    (Served tr found.job ∧ Kept s.templates found.job) ∧
      found.share.jobId = found.job.jobId ∧ FromBatch (fun o => .miner o ∈ tr) found

section Sound

variable {mc : MinerConfig} {s s' : DaemonState} {i : DaemonInput} {tr os : List DaemonObs}

theorem Served.append {job : Job} (h : Served tr job) (os : List DaemonObs) :
    Served (tr ++ os) job := by
  obtain ⟨result, hmem, hjob⟩ := h
  exact ⟨result, List.mem_append_left _ hmem, hjob⟩

theorem DaemonSound.append (h : DaemonSound s tr) (os : List DaemonObs) :
    DaemonSound s (tr ++ os) where
  jobs := h.jobs.mono fun _ ⟨hs, hk⟩ => ⟨hs.append os, hk⟩
  shares := h.shares.mono fun _ hf => hf.mono fun _ ho => List.mem_append_left _ ho
  received job hp := (h.received job hp).append os
  kept job hp := ⟨(h.kept job hp).1.append os, (h.kept job hp).2⟩
  looking found hp := by
    obtain ⟨⟨hserved, hkept⟩, hid, hbatch⟩ := h.looking found hp
    exact ⟨⟨hserved.append os, hkept⟩, hid, hbatch.mono fun _ ho => List.mem_append_left _ ho⟩

theorem daemonSound_start (T : UInt32) : DaemonSound (.start T) [] where
  jobs := jobsFrom_start _ T
  shares := sharesFrom_start _ T
  received := by simp [DaemonState.start]
  kept := by simp [DaemonState.start]
  looking := by simp [DaemonState.start]

/-- The two blobs of the job are those of the response. -/
theorem blobs_of_getBlockTemplate {result : BlockTemplateResult} {job : Job}
    (h : getBlockTemplate result = some job) :
    job.blockTemplateBlob = some result.blocktemplateBlob ∧
      Base16.decode result.blockhashingBlob = some job.blobBytes := by
  simp only [getBlockTemplate, Job.fromDaemonTemplate] at h
  split at h
  · cases h
  · next hblob =>
      split at h
      · cases h
      · cases h
        exact ⟨rfl, hblob⟩

theorem Served.template {job : Job} (h : Served tr job) :
    ∃ template, job.blockTemplateBlob = some template := by
  obtain ⟨result, _, hjob⟩ := h
  exact ⟨_, (blobs_of_getBlockTemplate hjob).1⟩

/-- A new template in the map is no loss for a job of another id, or with a
template of the same frame. -/
theorem Kept.update {templates : String → Option String} {old job : Job} {template : String}
    (h : Kept templates old) (ht : job.blockTemplateBlob = some template)
    (hsame : old.jobId = job.jobId →
      old.blockTemplateBlob.bind templateFrame = job.blockTemplateBlob.bind templateFrame) :
    Kept (Function.update templates job.jobId (some template)) old := by
  obtain ⟨oldTemplate, kept, hold, hkept, hframe⟩ := h
  by_cases hid : old.jobId = job.jobId
  · have hframes := hsame hid
    rw [hold, ht, Option.bind_some, Option.bind_some] at hframes
    exact ⟨oldTemplate, template, hold, by rw [hid, Function.update_self], hframes.symm⟩
  · exact ⟨oldTemplate, kept, hold, by rw [Function.update_of_ne hid, hkept], hframe⟩

theorem InUse.of_jobsFrom {P : Job → Prop} {job : Job} (huse : InUse s job)
    (h : JobsFrom P s.miner) (hlooking : ∀ found, s.submitter = .looking found → P found.job) :
    P job := by
  cases huse with
  | watch hj => exact h.watch job hj
  | worker hj => exact (h.workers _).current job hj
  | offering hp hf => exact ((h.workers _).offering _ hp _ hf).1
  | mined hf => exact (h.mined _ hf).1
  | looking hl => exact hlooking _ hl

/-- The jobs of the threads are in use. -/
theorem jobsFrom_of_inUse {P Q : Job → Prop} (h : JobsFrom P s.miner)
    (hPQ : ∀ job, InUse s job → P job → Q job) : JobsFrom Q s.miner where
  watch job hj := hPQ job (.watch hj) (h.watch job hj)
  workers w :=
    { current := fun job hj => hPQ job (.worker hj) ((h.workers w).current job hj)
      offering := fun found hp f hf =>
        ⟨hPQ _ (.offering hp hf) ((h.workers w).offering found hp f hf).1,
          ((h.workers w).offering found hp f hf).2⟩ }
  mined f hf := ⟨hPQ _ (.mined hf) (h.mined f hf).1, (h.mined f hf).2⟩

/-- What the threads do, as far as jobs and shares are concerned. -/
theorem DaemonSound.miner_step {j : MinerInput} {miner : MinerState} {mos : List MinerObs}
    (h : DaemonSound s tr)
    (hpub : ∀ job, j = .publish job → Served tr job ∧ Kept s.templates job)
    (hmos : ∀ o ∈ mos, .miner o ∈ tr) (hm : minerStep mc s.miner j = some (miner, mos)) :
    DaemonSound { s with miner } tr :=
  { h with
    jobs := jobsFrom_step h.jobs hpub hm
    shares := sharesFrom_step h.shares hmos hm }

theorem DaemonSound.insert {job : Job} {template : String} (h : DaemonSound s tr)
    (hok : ¬ ReplacesTemplate s .insert) (hp : s.poller = .received job)
    (ht : job.blockTemplateBlob = some template) :
    DaemonSound
      { s with
        poller := .kept job
        templates := Function.update s.templates job.jobId (some template) } tr := by
  have hsame : ∀ old, InUse s old → old.jobId = job.jobId →
      old.blockTemplateBlob.bind templateFrame = job.blockTemplateBlob.bind templateFrame := by
    intro old huse hid
    by_contra hne
    exact hok ⟨job, old, hp, huse, hid, hne⟩
  exact
    { jobs := jobsFrom_of_inUse (s := s) h.jobs fun old huse ⟨hserved, hkept⟩ =>
        ⟨hserved, hkept.update ht (hsame old huse)⟩
      shares := h.shares
      received := by simp
      kept := by
        intro job' heq
        obtain rfl : job = job' := by simpa using heq
        exact ⟨h.received job hp, template, template, ht, Function.update_self .., rfl⟩
      looking := fun found hl =>
        have hfound := h.looking found hl
        ⟨⟨hfound.1.1, hfound.1.2.update ht (hsame _ (.looking hl))⟩, hfound.2⟩ }

theorem daemonSound_step (h : DaemonSound s tr) (hok : ¬ ReplacesTemplate s i)
    (hs : daemonStep mc s i = some (s', os)) : DaemonSound s' (tr ++ os) := by
  have hgrown := h.append os
  cases daemonMoves_of_step hs with
  | failed => exact hgrown
  | refused _ _ => exact hgrown
  | @received result job _ hj =>
      refine { hgrown with received := ?_, kept := by simp }
      intro job' heq
      obtain rfl : job = job' := by simpa using heq
      exact ⟨result, by simp, hj⟩
  | insert hp ht => exact hgrown.insert hok hp ht
  | @noTemplate job hp ht =>
      obtain ⟨template, ht'⟩ := (h.received job hp).template
      rw [ht] at ht'
      cases ht'
  | sameJob _ _ => exact { hgrown with received := by simp, kept := by simp }
  | @publish job miner mos hp _ hm =>
      have hminer := hgrown.miner_step (fun job' heq => by cases heq; exact hgrown.kept job hp)
        (fun o ho => by simp [ho]) hm
      exact { hminer with received := by simp, kept := by simp }
  | @miner j miner mos hpub _ hm =>
      exact hgrown.miner_step (fun job hj => absurd hj (hpub job)) (fun o ho => by simp [ho]) hm
  | @recvShare found rest _ hq =>
      have hm : minerStep mc s.miner .pop
          = some ({ s.miner with mined := rest }, [.popped found]) := by simp [minerStep, hq]
      have hpop := hgrown.miner_step (by simp) (by simp) hm
      have hmem : found ∈ s.miner.mined := by simp [hq]
      refine { hpop with looking := ?_ }
      intro found' heq
      obtain rfl : found = found' := by simpa using heq
      obtain ⟨hjob, hid⟩ := hgrown.jobs.mined found hmem
      exact ⟨hjob, hid, hgrown.shares.mined found hmem⟩
  | rejected _ => exact { hgrown with looking := by simp }
  | submit _ _ _ => exact { hgrown with looking := by simp }
  | submitted _ => exact { hgrown with looking := by simp }
  | shutdown _ => exact { hgrown with looking := by simp }

theorem daemonSound_of_run {is : List DaemonInput} {T : UInt32}
    (h : Run (daemonStep mc) (fun s i => ¬ ReplacesTemplate s i) (.start T) is s tr) :
    DaemonSound s tr :=
  h.invariant (daemonSound_start T) fun hsound hok hs => daemonSound_step hsound hok hs

/-- A block is submitted by a lookup. -/
theorem submit_of_step {found : Found} {blockBlob : String} {pre post : List DaemonObs}
    (hs : daemonStep mc s i = some (s', os))
    (hos : os = pre ++ .submitBlock found blockBlob :: post) :
    pre = [] ∧ s.submitter = .looking found ∧ ∃ template,
      s.templates found.share.jobId = some template ∧
        blockTemplateWithNonce template found.share.nonce = some blockBlob := by
  have hmem : DaemonObs.submitBlock found blockBlob ∈ os := by simp [hos]
  cases daemonMoves_of_step hs with
  | submit hp ht hb =>
      simp only [List.mem_singleton, DaemonObs.submitBlock.injEq] at hmem
      obtain ⟨rfl, rfl⟩ := hmem
      refine ⟨?_, hp, _, ht, hb⟩
      cases pre with
      | nil => rfl
      | cons x pre => simp at hos
  | _ => simp at hmem

end Sound

/-- A submitted block, given what was observed before it: the template of one
response with the share's nonce in it, for a share mined on the hashing blob of
the same response. -/
structure SubmittedFor (pre : List DaemonObs) (found : Found) (blockBlob : String) : Prop where
  response : ∃ result, .response result ∈ pre ∧ getBlockTemplate result = some found.job ∧
    Base16.decode result.blockhashingBlob = some found.job.blobBytes ∧
    BlockOf result.blocktemplateBlob found.share.nonce blockBlob
  mined : FromBatch (fun o => .miner o ∈ pre) found

/-- As long as no template in use is replaced by a different one, every block
is submitted for a share of its own template's response. -/
theorem submitted_block_of_response (mc : MinerConfig) {is : List DaemonInput}
    {s : DaemonState} {tr : List DaemonObs}
    (h : Run (daemonStep mc) (fun s i => ¬ ReplacesTemplate s i) (.start mc.threadCount)
      is s tr) :
    Justified (fun pre x => ∀ found blockBlob, x = .submitBlock found blockBlob →
      SubmittedFor pre found blockBlob) tr := by
  refine h.justified ?_
  intro is s s' tr os i hrun _ hs pre x post hos found blockBlob hx
  subst hx
  obtain ⟨rfl, hp, kept, hkept, hblock⟩ := submit_of_step hs hos
  rw [List.append_nil]
  obtain ⟨⟨hserved, template, kept', ht, hkept', hframe⟩, hid, hmined⟩ :=
    (daemonSound_of_run hrun).looking found hp
  obtain ⟨result, hmem, hjob⟩ := hserved
  obtain ⟨htemplate, hblob⟩ := blobs_of_getBlockTemplate hjob
  obtain rfl : kept = kept' := by
    rw [hid, hkept'] at hkept
    exact (Option.some.inj hkept).symm
  obtain rfl : template = result.blocktemplateBlob := by
    rw [ht] at htemplate
    exact Option.some.inj htemplate
  rw [blockTemplateWithNonce_congr hframe] at hblock
  exact ⟨⟨result, hmem, hjob, hblob, blockOf_of_eq_some hblock⟩, hmined⟩

/-! ### Two responses under one id -/

/-- A template of zeros at height 1. -/
def soloResult : BlockTemplateResult :=
  { blocktemplateBlob := Base16.encode (List.replicate 43 0)
    blockhashingBlob := Base16.encode (List.replicate 43 0), difficulty := 1, height := 1
    seedHash := none, nextSeedHash := none }

/-- The next template at that height: the hashing blob differs in its last byte
only. -/
def nextResult : BlockTemplateResult :=
  { soloResult with
    blocktemplateBlob := Base16.encode (List.replicate 43 1)
    blockhashingBlob := Base16.encode (List.replicate 42 0 ++ [1]) }

/-- One thread, whose every hash is a share. -/
def soloMiner : MinerConfig := { hash := fun _ => zeroHash, threadCount := 1 }

/-- The job of the first response. -/
def soloJob : Job :=
  { jobId := "daemon-1-0000000000000000", blob := Base16.encode (List.replicate 43 0)
    target := "1", algo := "rx/0", height := some 1, seedHash := none
    blockTemplateBlob := some (Base16.encode (List.replicate 43 0))
    blobBytes := List.replicate 43 0, difficulty := 1, nicehash := false }

theorem getBlockTemplate_soloResult : getBlockTemplate soloResult = some soloJob := by
  decide +kernel

/-- The template of the first response is kept. -/
def soloKept : DaemonState :=
  { DaemonState.start 1 with
    poller := .kept soloJob
    templates := Function.update (fun _ => none) soloJob.jobId soloJob.blockTemplateBlob }

/-- The first template replaces none. -/
theorem soloRun_start :
    Run (daemonStep soloMiner) (fun s i => ¬ ReplacesTemplate s i) (.start 1)
      [.response (some soloResult), .insert] soloKept [.response soloResult] := by
  have hresponse : daemonStep soloMiner (.start 1) (.response (some soloResult))
      = some ({ DaemonState.start 1 with poller := .received soloJob },
        [.response soloResult]) := by
    simp only [daemonStep, DaemonState.start, getBlockTemplate_soloResult]
    rfl
  have hfree : ¬ ReplacesTemplate { DaemonState.start 1 with poller := .received soloJob }
      .insert := by
    intro hreplaces
    obtain ⟨job, old, _, huse, _⟩ := hreplaces
    exact huse.of_jobsFrom (jobsFrom_start (fun _ => False) 1) (by simp [DaemonState.start])
  exact (Run.single (by simp [ReplacesTemplate]) hresponse).snoc hfree rfl

def soloShareInputs : List DaemonInput :=
  [.publish, .miner (.read 0), .miner (.cache (.lock 0)), .miner (.cache (.built 0 true)),
    .miner (.cache (.store 0)), .miner (.createVm 0 true), .miner (.mine 0),
    .miner (.offer 0), .recvShare]

theorem no_insert_of_mem_soloShareInputs {t : DaemonState} {i : DaemonInput}
    (hi : i ∈ soloShareInputs ++ [.lookup]) : ¬ ReplacesTemplate t i := by
  simp only [soloShareInputs, List.cons_append, List.nil_append, List.mem_cons,
    List.not_mem_nil, or_false] at hi
  rcases hi with rfl | rfl | rfl | rfl | rfl | rfl | rfl | rfl | rfl | rfl <;>
    simp [ReplacesTemplate]

def isSubmitBlock : DaemonObs → Bool
  | .submitBlock _ _ => true
  | _ => false

/-- The share of a template that stays. -/
theorem submitted_block_of_response_solo :
    ∃ is s tr, tr.any isSubmitBlock = true ∧
      Run (daemonStep soloMiner) (fun s i => ¬ ReplacesTemplate s i) (.start 1) is s tr ∧
      Justified (fun pre x => ∀ found blockBlob, x = .submitBlock found blockBlob →
        SubmittedFor pre found blockBlob) tr := by
  have hexec : (exec (daemonStep soloMiner) soloKept (soloShareInputs ++ [.lookup])).any
      (fun r => r.2.any isSubmitBlock) = true := by decide +kernel
  obtain ⟨s, tr, hrun, hsubmit⟩ := run_of_exec_test
    (p := fun _ tr => tr.any isSubmitBlock) hexec
    fun t i hi => no_insert_of_mem_soloShareInputs (t := t) hi
  have hall := soloRun_start.append hrun
  refine ⟨_, s, _, ?_, hall, submitted_block_of_response soloMiner hall⟩
  rw [List.any_append, hsubmit, Bool.or_true]

/-- A block whose frame is not that of the template of any response with the
hashing blob of the share's job. -/
def otherTemplate (pre : List DaemonObs) : DaemonObs → Bool
  | .submitBlock found blockBlob =>
      pre.all fun
        | .response result =>
            Base16.decode result.blockhashingBlob ≠ some found.job.blobBytes ∨
              templateFrame blockBlob ≠ templateFrame result.blocktemplateBlob
        | _ => true
  | _ => false

/-- The share is found on the first response and looked up after the second. -/
theorem block_of_another_response :
    ∃ is s tr, Run (daemonStep soloMiner) (fun _ _ => True) (.start 1) is s tr ∧
      ∃ pre post found blockBlob, tr = pre ++ .submitBlock found blockBlob :: post ∧
        ∀ result, .response result ∈ pre →
          Base16.decode result.blockhashingBlob = some found.job.blobBytes →
            ¬ BlockOf result.blocktemplateBlob found.share.nonce blockBlob := by
  have hexec : (exec (daemonStep soloMiner) soloKept
      (soloShareInputs ++ [.response (some nextResult), .insert, .lookup])).any
        (fun r => endsWith otherTemplate (.response soloResult :: r.2)) = true := by
    decide +kernel
  obtain ⟨s, tr, hrun, hother⟩ := anyRun_of_exec_test
    (p := fun _ tr => endsWith otherTemplate (.response soloResult :: tr)) hexec
  obtain ⟨pre, x, htr, hx⟩ := exists_of_endsWith hother
  refine ⟨_, s, _, soloRun_start.any.append hrun, ?_⟩
  unfold otherTemplate at hx
  split at hx
  · next found blockBlob =>
      refine ⟨pre, [], found, blockBlob, htr, fun result hmem hblob hblock => ?_⟩
      have hresult := List.all_eq_true.mp hx _ hmem
      rcases of_decide_eq_true hresult with hne | hne
      · exact hne hblob
      · exact hne (templateFrame_of_blockOf hblock)
  · cases hx

end LiteXmr.Daemon
