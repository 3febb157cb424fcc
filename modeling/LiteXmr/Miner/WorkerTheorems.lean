/-
LiteXmr.Miner.WorkerTheorems — what the mining threads work on, over every
run of the publisher, the threads, the dataset cache and the share queue.

`MinerMoves` lists what a step can be. The invariants are:

* `JobsFrom P` — every job held anywhere (in the channel, by a worker, with
  a mined share) satisfies `P`; the shares carry the ids of their jobs.
* `SharesFrom Q` — every share held anywhere satisfies `Q`; new ones come
  from batches (`FromBatch`).
* `WorkerSound` — how one worker's job, buffers, seed, algo and VM hang
  together and which of the worker's reads they come from.

A worker takes over what it reads only when the job id changes. So the job
of a batch is the one read when the id last changed (`Adopted`), and every
field used in the batch is that job's (`batch_uses_adopted_job`); a job
published again under the same id with other fields is not taken over
(`republished_job_not_adopted`).

The VM of a batch was built from the job's own algo and seed, for every
interleaving of builds (`batch_dataset_built_for_job`).
-/
import LiteXmr.Miner.Coverage
import LiteXmr.Miner.DatasetCacheTheorems
import LiteXmr.Miner.Worker

namespace LiteXmr

open Lts

namespace MinerState

variable {s : MinerState} {w v : Nat} {worker : Worker}

@[simp] theorem setWorker_self : (s.setWorker w worker).workers w = worker := by
  simp [setWorker]

@[simp] theorem setWorker_of_ne (h : v ≠ w) :
    (s.setWorker w worker).workers v = s.workers v := by
  simp [setWorker, h]

@[simp] theorem setWorker_watch : (s.setWorker w worker).watch = s.watch := rfl
@[simp] theorem setWorker_cache : (s.setWorker w worker).cache = s.cache := rfl
@[simp] theorem setWorker_mined : (s.setWorker w worker).mined = s.mined := rfl

variable {cache : RxDatasetCache} {found : Found}

@[simp] theorem setCache_workers : (s.setCache cache).workers = s.workers := rfl
@[simp] theorem setCache_watch : (s.setCache cache).watch = s.watch := rfl
@[simp] theorem setCache_cache : (s.setCache cache).cache = cache := rfl
@[simp] theorem setCache_mined : (s.setCache cache).mined = s.mined := rfl

@[simp] theorem trySend_workers : (s.trySend found).1.workers = s.workers := by
  unfold trySend
  split <;> rfl

@[simp] theorem trySend_watch : (s.trySend found).1.watch = s.watch := by
  unfold trySend
  split <;> rfl

@[simp] theorem trySend_cache : (s.trySend found).1.cache = s.cache := by
  unfold trySend
  split <;> rfl

theorem mem_trySend_mined {f : Found} (h : f ∈ (s.trySend found).1.mined) :
    f ∈ s.mined ∨ f = found := by
  unfold trySend at h
  split at h
  · simpa using h
  · exact Or.inl h

end MinerState

/-! ## What a step can be -/

inductive MinerMoves (config : MinerConfig) (s : MinerState) :
    MinerInput → MinerState → List MinerObs → Prop where
  | publish {job : Job} (hopen : s.watch.closed = false) :
      MinerMoves config s (.publish job) { s with watch := s.watch.send job }
        [.published job]
  | dropSender :
      MinerMoves config s .dropSender { s with watch := { s.watch with closed := true } } []
  | readNone {w : Nat} (hp : (s.workers w).phase = .head)
      (hj : ((s.workers w).adopt w s.watch).currentJob = none) :
      MinerMoves config s (.read w)
        (s.setWorker w { (s.workers w).adopt w s.watch with phase := .waitChanged })
        [.read w s.watch.value]
  | readNewVm {w : Nat} {job : Job} {cache : RxDatasetCache} {os : List CacheObs}
      (hp : (s.workers w).phase = .head)
      (hj : ((s.workers w).adopt w s.watch).currentJob = some job)
      (hc : cacheStep s.cache (.call w (.ofJob job)) = some (cache, os)) :
      MinerMoves config s (.read w)
        ((s.setWorker w { (s.workers w).adopt w s.watch with phase := .inCache }).setCache
          cache)
        (.read w s.watch.value :: os.map .cache)
  | readSameVm {w : Nat} {job : Job} (hp : (s.workers w).phase = .head)
      (hj : ((s.workers w).adopt w s.watch).currentJob = some job)
      (hv : ((s.workers w).adopt w s.watch).needsVm job = false) :
      MinerMoves config s (.read w)
        (s.setWorker w { (s.workers w).adopt w s.watch with phase := .mining })
        [.read w s.watch.value]
  | changed {w : Nat} (hp : (s.workers w).phase = .waitChanged)
      (hv : s.watch.version ≠ (s.workers w).seen) :
      MinerMoves config s (.changed w)
        (s.setWorker w { s.workers w with phase := .head, seen := s.watch.version }) []
  | exit {w : Nat} (hp : (s.workers w).phase = .waitChanged)
      (hclosed : s.watch.closed = true) :
      MinerMoves config s (.changed w)
        (s.setWorker w { s.workers w with phase := .exited }) []
  | cache {input : CacheInput} {cache : RxDatasetCache} {os : List CacheObs}
      (hi : input.isInternal = true) (hc : cacheStep s.cache input = some (cache, os)) :
      MinerMoves config s (.cache input) (s.setCache cache) (os.map .cache)
  | newVm {w : Nat} {available : Bool} {job : Job} {req : Request} {dataset : Dataset}
      {vm : Vm} {cache : RxDatasetCache} {os : List CacheObs}
      (hp : (s.workers w).phase = .inCache) (hj : (s.workers w).currentJob = some job)
      (hr : s.cache.callers w = .returned req (some dataset))
      (hc : cacheStep s.cache (.ret w) = some (cache, os))
      (hvm : Vm.new dataset available = some vm) :
      MinerMoves config s (.createVm w available)
        ((s.setWorker w
          { s.workers w with
            phase := .mining, vm := some vm
            currentSeed := some job.seed, currentAlgo := some job.algo }).setCache cache)
        (os.map .cache ++ [.vmCreated w job vm])
  | noVm {w : Nat} {available : Bool} {job : Job} {cache : RxDatasetCache}
      {os : List CacheObs} (hp : (s.workers w).phase = .inCache)
      (hj : (s.workers w).currentJob = some job)
      (hc : cacheStep s.cache (.ret w) = some (cache, os)) :
      MinerMoves config s (.createVm w available)
        ((s.setWorker w { s.workers w with phase := .head }).setCache cache)
        (os.map .cache)
  | batch {w : Nat} {job : Job} {vm : Vm} {batch : Batch}
      (hp : (s.workers w).phase = .mining) (hj : (s.workers w).currentJob = some job)
      (hv : (s.workers w).vm = some vm)
      (hb : batch = mineOneBatch (config.hash vm.dataset) job config.threadCount
        (s.workers w).nonce (s.workers w).blobs) :
      MinerMoves config s (.mine w)
        (s.setWorker w
          { s.workers w with
            phase := .offering (batch.shares.map fun share => { share, job })
            nonce := batch.nonce, blobs := batch.blobs })
        [.batch w job vm (s.workers w).nonce (s.workers w).blobs batch]
  | noBatch {w : Nat} (hp : (s.workers w).phase = .mining) :
      MinerMoves config s (.mine w) (s.setWorker w { s.workers w with phase := .head }) []
  | offered {w : Nat} (hp : (s.workers w).phase = .offering []) :
      MinerMoves config s (.offer w) (s.setWorker w { s.workers w with phase := .head }) []
  | offer {w : Nat} {found : Found} {rest : List Found} {sent : MinerState × Bool}
      (hp : (s.workers w).phase = .offering (found :: rest))
      (hsent : sent
        = (s.setWorker w { s.workers w with phase := .offering rest }).trySend found) :
      MinerMoves config s (.offer w) sent.1 [.offered w found sent.2]
  | pop {found : Found} {rest : List Found} (hm : s.mined = found :: rest) :
      MinerMoves config s .pop { s with mined := rest } [.popped found]

theorem minerMoves_of_step {config : MinerConfig} {s s' : MinerState} {i : MinerInput}
    {os : List MinerObs} (h : minerStep config s i = some (s', os)) :
    MinerMoves config s i s' os := by
  cases i with
  | publish job =>
      simp only [minerStep] at h
      split at h
      · cases h
      · next hc =>
          cases h
          exact .publish (by simpa using hc)
  | dropSender =>
      cases h
      exact .dropSender
  | read w =>
      simp only [minerStep] at h
      split at h
      · next hp =>
          split at h
          · next hj =>
              cases h
              exact .readNone hp hj
          · next job hj =>
              split at h
              · split at h
                · next cache os hc =>
                    cases h
                    exact .readNewVm hp hj hc
                · cases h
              · next hv =>
                  cases h
                  exact .readSameVm hp hj (by simpa using hv)
      · cases h
  | changed w =>
      simp only [minerStep] at h
      split at h
      · next hp =>
          split at h
          · next hv =>
              cases h
              exact .changed hp hv
          · split at h
            · next hclosed =>
                cases h
                exact .exit hp hclosed
            · cases h
      · cases h
  | cache input =>
      simp only [minerStep] at h
      split at h
      · next hi =>
          split at h
          · next hc =>
              cases h
              exact .cache hi hc
          · cases h
      · cases h
  | createVm w available =>
      simp only [minerStep] at h
      split at h
      · next job req dataset cache os hp hj hr hc =>
          split at h
          · next vm hvm =>
              cases h
              obtain ⟨d, rfl, hd⟩ := Option.bind_eq_some_iff.mp hvm
              exact .newVm hp hj hr hc hd
          · cases h
            exact .noVm hp hj hc
      · cases h
  | mine w =>
      simp only [minerStep] at h
      split at h
      · next job vm hp hj hv =>
          cases h
          exact .batch hp hj hv rfl
      · next hp _ =>
          cases h
          exact .noBatch hp
      · cases h
  | offer w =>
      simp only [minerStep] at h
      split at h
      · next hp =>
          cases h
          exact .offered hp
      · next hp =>
          cases h
          exact .offer hp rfl
      · cases h
  | pop =>
      simp only [minerStep] at h
      split at h
      · cases h
      · next hm =>
          cases h
          exact .pop hm

/-! ## Adopting a job -/

namespace Worker

variable (worker : Worker) (w : Nat) (watch : Watch)

/-- The job after a read: the one read, unless its id is the current one's. -/
theorem adopt_currentJob :
    (worker.adopt w watch).currentJob =
      if watch.value.map Job.jobId = worker.currentJob.map Job.jobId then worker.currentJob
      else watch.value := by
  unfold adopt
  by_cases h : watch.value.map Job.jobId = worker.currentJob.map Job.jobId
  · simp [h]
  · cases hv : watch.value with
    | none => simp_all
    | some job => simp_all

@[simp] theorem adopt_phase : (worker.adopt w watch).phase = worker.phase := by
  simp only [adopt]
  split
  · split <;> rfl
  · rfl

@[simp] theorem adopt_vm : (worker.adopt w watch).vm = worker.vm := by
  simp only [adopt]
  split
  · split <;> rfl
  · rfl

@[simp] theorem adopt_currentSeed :
    (worker.adopt w watch).currentSeed = worker.currentSeed := by
  simp only [adopt]
  split
  · split <;> rfl
  · rfl

@[simp] theorem adopt_currentAlgo :
    (worker.adopt w watch).currentAlgo = worker.currentAlgo := by
  simp only [adopt]
  split
  · split <;> rfl
  · rfl

/-- A job that is taken over fills all buffers with its blob. -/
theorem adopt_blobs :
    (worker.adopt w watch).blobs =
      if watch.value.map Job.jobId = worker.currentJob.map Job.jobId then worker.blobs
      else match watch.value with
        | none => worker.blobs
        | some job => worker.blobs.map fun _ => job.blobBytes := by
  unfold adopt
  by_cases h : watch.value.map Job.jobId = worker.currentJob.map Job.jobId
  · simp [h]
  · cases hv : watch.value with
    | none => simp_all
    | some job => simp_all

end Worker

/-! ## Jobs and where they come from -/

/-- The jobs of a worker satisfy `P`, and the shares it is about to offer
carry the ids of their jobs. -/
structure Worker.JobsFrom (P : Job → Prop) (worker : Worker) : Prop where
  current : ∀ job, worker.currentJob = some job → P job
  offering : ∀ found, worker.phase = .offering found →
    ∀ f ∈ found, P f.job ∧ f.share.jobId = f.job.jobId

structure JobsFrom (P : Job → Prop) (s : MinerState) : Prop where
  watch : ∀ job, s.watch.value = some job → P job
  workers : ∀ w, (s.workers w).JobsFrom P
  mined : ∀ f ∈ s.mined, P f.job ∧ f.share.jobId = f.job.jobId

section JobsFrom

variable {P Q : Job → Prop} {s s' : MinerState} {w : Nat} {worker : Worker}

theorem JobsFrom.mono (hPQ : ∀ job, P job → Q job) (h : JobsFrom P s) : JobsFrom Q s where
  watch job hj := hPQ job (h.watch job hj)
  workers w :=
    { current := fun job hj => hPQ job ((h.workers w).current job hj)
      offering := fun found hp f hf =>
        ⟨hPQ _ ((h.workers w).offering found hp f hf).1,
          ((h.workers w).offering found hp f hf).2⟩ }
  mined f hf := ⟨hPQ _ (h.mined f hf).1, (h.mined f hf).2⟩

theorem JobsFrom.setCache (h : JobsFrom P s) (cache : RxDatasetCache) :
    JobsFrom P (s.setCache cache) where
  watch := h.watch
  workers := h.workers
  mined := h.mined

theorem JobsFrom.setWorker (h : JobsFrom P s) (hw : worker.JobsFrom P) :
    JobsFrom P (s.setWorker w worker) where
  watch := h.watch
  mined := h.mined
  workers v := by
    by_cases hv : v = w
    · subst hv
      rw [MinerState.setWorker_self]
      exact hw
    · rw [MinerState.setWorker_of_ne hv]
      exact h.workers v

/-- The same job in another phase that offers nothing. -/
theorem Worker.JobsFrom.of_current {worker' : Worker} (h : worker.JobsFrom P)
    (hj : worker'.currentJob = worker.currentJob)
    (hp : ∀ found, worker'.phase ≠ .offering found) : worker'.JobsFrom P where
  current job h' := h.current job (hj ▸ h')
  offering found hf := absurd hf (hp found)

theorem JobsFrom.adopt (h : JobsFrom P s) {phase : WorkerPhase}
    (hp : ∀ found, phase ≠ .offering found) :
    Worker.JobsFrom P { (s.workers w).adopt w s.watch with phase := phase } where
  current job hj := by
    simp only [Worker.adopt_currentJob] at hj
    split at hj
    · exact (h.workers w).current job hj
    · exact h.watch job hj
  offering found hf := absurd hf (hp found)

theorem mineRounds_jobId (hash : Bytes → Hash) (job : Job) (T : UInt32) (fuel : Nat) :
    ∀ (remaining : Nat) (nonce : UInt32) (blobs : List Bytes),
      ∀ share ∈ (mineRounds hash job T fuel remaining nonce blobs).shares,
        share.jobId = job.jobId := by
  have hround : ∀ (count : Nat) (nonce : UInt32) (blobs : List Bytes),
      ∀ share ∈ (mineRound hash job T count nonce blobs).shares,
        share.jobId = job.jobId := by
    intro count nonce blobs share hmem
    simp only [mineRound] at hmem
    split at hmem
    · simp at hmem
    · obtain ⟨slot, _, hshare⟩ := List.mem_filterMap.mp hmem
      rw [(shareOf_eq_some hshare).2]
  induction fuel with
  | zero => simp [mineRounds]
  | succ fuel ih =>
      intro remaining nonce blobs share hmem
      simp only [mineRounds] at hmem
      split at hmem
      · simp at hmem
      · split at hmem
        · exact hround _ _ _ share hmem
        · rcases List.mem_append.mp hmem with hm | hm
          · exact hround _ _ _ share hm
          · exact ih _ _ _ share hm

theorem jobsFrom_step {config : MinerConfig} {i : MinerInput} {os : List MinerObs}
    (h : JobsFrom P s) (hpub : ∀ job, i = .publish job → P job)
    (hs : minerStep config s i = some (s', os)) : JobsFrom P s' := by
  cases minerMoves_of_step hs with
  | @publish job _ =>
      refine { h with watch := fun job' hj => ?_ }
      obtain rfl : job = job' := by simpa [Watch.send] using hj
      exact hpub job rfl
  | dropSender => exact { h with }
  | readNone hp hj => exact h.setWorker (h.adopt (by simp))
  | readNewVm hp hj hc => exact (h.setWorker (h.adopt (by simp))).setCache _
  | readSameVm hp hj hv => exact h.setWorker (h.adopt (by simp))
  | changed hp hv => exact h.setWorker ((h.workers _).of_current rfl (by simp))
  | exit hp hclosed => exact h.setWorker ((h.workers _).of_current rfl (by simp))
  | cache hi hc => exact h.setCache _
  | newVm hp hj hr hc hvm =>
      apply JobsFrom.setCache
      exact h.setWorker ((h.workers _).of_current rfl (by simp))
  | noVm hp hj hc =>
      apply JobsFrom.setCache
      exact h.setWorker ((h.workers _).of_current rfl (by simp))
  | @batch w job vm batch hp hj hv hb =>
      refine h.setWorker ⟨(h.workers w).current, fun found hf f hmem => ?_⟩
      obtain rfl : batch.shares.map (fun share => Found.mk share job) = found := by
        simpa using hf
      obtain ⟨share, hshare, rfl⟩ := List.mem_map.mp hmem
      refine ⟨(h.workers w).current job hj, ?_⟩
      rw [hb] at hshare
      exact mineRounds_jobId _ _ _ _ _ _ _ share hshare
  | noBatch hp => exact h.setWorker ((h.workers _).of_current rfl (by simp))
  | offered hp => exact h.setWorker ((h.workers _).of_current rfl (by simp))
  | @offer w found rest sent hp hsent =>
      have hall := (h.workers w).offering _ hp
      have hset : JobsFrom P
          (s.setWorker w { s.workers w with phase := .offering rest }) := by
        refine h.setWorker ⟨(h.workers w).current, fun found' hf f hmem => ?_⟩
        obtain rfl : rest = found' := by simpa using hf
        exact hall f (List.mem_cons_of_mem _ hmem)
      subst hsent
      refine ⟨by simpa using hset.watch, by simpa using hset.workers, fun f hmem => ?_⟩
      rcases MinerState.mem_trySend_mined hmem with hm | rfl
      · exact h.mined f hm
      · exact hall f (by simp)
  | @pop found rest hm =>
      exact { h with mined := fun f hmem => h.mined f (by simp [hm, hmem]) }

theorem jobsFrom_start (P : Job → Prop) (T : UInt32) : JobsFrom P (.start T) where
  watch := by simp [MinerState.start]
  mined := by simp [MinerState.start]
  workers w := by
    constructor <;> simp only [MinerState.start] <;> split <;> simp [Worker.new]

end JobsFrom

/-! ## Shares and the batches they come from -/

/-- A batch on the share's job that was seen gave the share. -/
def FromBatch (seen : MinerObs → Prop) (found : Found) : Prop :=
  ∃ w vm nonce blobs result,
    seen (.batch w found.job vm nonce blobs result) ∧ found.share ∈ result.shares

/-- Every share held anywhere, with its job, satisfies `Q`. -/
structure SharesFrom (Q : Found → Prop) (s : MinerState) : Prop where
  offering : ∀ w found, (s.workers w).phase = .offering found → ∀ f ∈ found, Q f
  mined : ∀ f ∈ s.mined, Q f

section SharesFrom

variable {Q R : Found → Prop} {seen seen' : MinerObs → Prop} {s s' : MinerState} {w : Nat}
  {worker : Worker}

theorem FromBatch.mono {found : Found} (hseen : ∀ o, seen o → seen' o)
    (h : FromBatch seen found) : FromBatch seen' found := by
  obtain ⟨w, vm, nonce, blobs, result, hbatch, hshare⟩ := h
  exact ⟨w, vm, nonce, blobs, result, hseen _ hbatch, hshare⟩

theorem SharesFrom.mono (hQR : ∀ f, Q f → R f) (h : SharesFrom Q s) : SharesFrom R s where
  offering w found hp f hf := hQR f (h.offering w found hp f hf)
  mined f hf := hQR f (h.mined f hf)

theorem SharesFrom.setCache (h : SharesFrom Q s) (cache : RxDatasetCache) :
    SharesFrom Q (s.setCache cache) where
  offering := h.offering
  mined := h.mined

theorem SharesFrom.setWorker (h : SharesFrom Q s)
    (hw : ∀ found, worker.phase = .offering found → ∀ f ∈ found, Q f) :
    SharesFrom Q (s.setWorker w worker) where
  mined := h.mined
  offering v found hp := by
    by_cases hv : v = w
    · subst hv
      rw [MinerState.setWorker_self] at hp
      exact hw found hp
    · rw [MinerState.setWorker_of_ne hv] at hp
      exact h.offering v found hp

/-- New shares come from batches only. -/
theorem sharesFrom_step {config : MinerConfig} {i : MinerInput} {os : List MinerObs}
    (h : SharesFrom (FromBatch seen) s) (hos : ∀ o ∈ os, seen o)
    (hs : minerStep config s i = some (s', os)) : SharesFrom (FromBatch seen) s' := by
  cases minerMoves_of_step hs with
  | publish _ => exact { h with }
  | dropSender => exact { h with }
  | readNone _ _ => exact h.setWorker (by simp)
  | readNewVm _ _ _ => exact (h.setWorker (by simp)).setCache _
  | readSameVm _ _ _ => exact h.setWorker (by simp)
  | changed _ _ => exact h.setWorker (by simp)
  | exit _ _ => exact h.setWorker (by simp)
  | cache _ _ => exact h.setCache _
  | newVm _ _ _ _ _ => exact (h.setWorker (by simp)).setCache _
  | noVm _ _ _ => exact (h.setWorker (by simp)).setCache _
  | @batch w job vm batch _ _ _ _ =>
      refine h.setWorker fun found hf f hmem => ?_
      obtain rfl : batch.shares.map (fun share => Found.mk share job) = found := by
        simpa using hf
      obtain ⟨share, hshare, rfl⟩ := List.mem_map.mp hmem
      exact ⟨w, vm, _, _, batch, hos _ (List.mem_singleton.mpr rfl), hshare⟩
  | noBatch _ => exact h.setWorker (by simp)
  | offered _ => exact h.setWorker (by simp)
  | @offer w found rest sent hp hsent =>
      have hall := h.offering w _ hp
      have hset : SharesFrom (FromBatch seen)
          (s.setWorker w { s.workers w with phase := .offering rest }) := by
        refine h.setWorker fun found' hf f hmem => ?_
        obtain rfl : rest = found' := by simpa using hf
        exact hall f (List.mem_cons_of_mem _ hmem)
      subst hsent
      refine ⟨by simpa using hset.offering, fun f hmem => ?_⟩
      rcases MinerState.mem_trySend_mined hmem with hm | rfl
      · exact h.mined f hm
      · exact hall f (by simp)
  | @pop found rest hm =>
      exact { h with mined := fun f hmem => h.mined f (by simp [hm, hmem]) }

theorem sharesFrom_start (Q : Found → Prop) (T : UInt32) : SharesFrom Q (.start T) where
  mined := by simp [MinerState.start]
  offering w := by
    simp only [MinerState.start]
    split <;> simp [Worker.new]

end SharesFrom

/-! ## What one worker has seen -/

def MinerObs.readOf (w : Nat) : MinerObs → Option (Option Job)
  | .read v latest => if v = w then some latest else none
  | _ => none

def MinerObs.vmOf (w : Nat) : MinerObs → Option (Job × Vm)
  | .vmCreated v job vm => if v = w then some (job, vm) else none
  | _ => none

/-- What worker `w` has read from the channel, in order. -/
def reads (w : Nat) (tr : List MinerObs) : List (Option Job) := tr.filterMap (MinerObs.readOf w)

/-- The VMs worker `w` has created, each with the job it was created for. -/
def vms (w : Nat) (tr : List MinerObs) : List (Job × Vm) := tr.filterMap (MinerObs.vmOf w)

@[simp] theorem reads_append (w : Nat) (tr os : List MinerObs) :
    reads w (tr ++ os) = reads w tr ++ reads w os := List.filterMap_append

@[simp] theorem vms_append (w : Nat) (tr os : List MinerObs) :
    vms w (tr ++ os) = vms w tr ++ vms w os := List.filterMap_append

@[simp] theorem reads_cache (w : Nat) (os : List CacheObs) :
    reads w (os.map .cache) = [] := by
  simp [reads, MinerObs.readOf, List.filterMap_map, Function.comp_def]

@[simp] theorem vms_cache (w : Nat) (os : List CacheObs) : vms w (os.map .cache) = [] := by
  simp [vms, MinerObs.vmOf, List.filterMap_map, Function.comp_def]

/-- `job` was read when the job id last changed: everything read since has
its id, what was read just before has not. -/
def Adopted (reads : List (Option Job)) (job : Job) : Prop :=
  ∃ before after, reads = before ++ some job :: after ∧
    (∀ latest ∈ after, latest.map Job.jobId = some job.jobId) ∧
    before.getLast?.join.map Job.jobId ≠ some job.jobId

theorem Adopted.new {reads : List (Option Job)} {job : Job}
    (h : reads.getLast?.join.map Job.jobId ≠ some job.jobId) :
    Adopted (reads ++ [some job]) job :=
  ⟨reads, [], rfl, by simp, h⟩

theorem Adopted.keep {reads : List (Option Job)} {job : Job} {latest : Option Job}
    (h : Adopted reads job) (hid : latest.map Job.jobId = some job.jobId) :
    Adopted (reads ++ [latest]) job := by
  obtain ⟨before, after, rfl, hafter, hbefore⟩ := h
  refine ⟨before, after ++ [latest], by simp, fun l hl => ?_, hbefore⟩
  rcases List.mem_append.mp hl with hm | hm
  · exact hafter l hm
  · rw [List.mem_singleton.mp hm]
    exact hid

/-- The adopted job has the id of the latest one. -/
theorem Adopted.latest {reads : List (Option Job)} {job : Job} (h : Adopted reads job) :
    reads.getLast?.join.map Job.jobId = some job.jobId := by
  obtain ⟨before, after, rfl, hafter, _⟩ := h
  rcases List.eq_nil_or_concat after with rfl | ⟨after', latest, rfl⟩
  · simp
  · have hid := hafter latest (by simp)
    rw [List.concat_eq_append, ← List.cons_append, ← List.append_assoc,
      List.getLast?_concat]
    simpa using hid

/-! ## One worker's caches -/

/-- The job and the buffers of a worker come from its reads. -/
structure HasJob (reads : List (Option Job)) (worker : Worker) : Prop where
  length : worker.blobs.length = pipelineSize
  idle : worker.currentJob = none → reads.getLast?.join = none
  adopted : ∀ job, worker.currentJob = some job → Adopted reads job
  buffers : ∀ job, worker.currentJob = some job → BuffersOf job worker.blobs

theorem HasJob.latest {reads : List (Option Job)} {worker : Worker}
    (h : HasJob reads worker) :
    worker.currentJob.map Job.jobId = reads.getLast?.join.map Job.jobId := by
  cases hj : worker.currentJob with
  | none => simp [h.idle hj]
  | some job => simp [(h.adopted job hj).latest]

/-- The job stays when the one that was read has its id. -/
theorem HasJob.adopt_same {reads : List (Option Job)} {worker : Worker}
    (h : HasJob reads worker) (w : Nat) {watch : Watch}
    (hid : watch.value.map Job.jobId = worker.currentJob.map Job.jobId) :
    HasJob (reads ++ [watch.value]) (worker.adopt w watch) := by
  have hj : (worker.adopt w watch).currentJob = worker.currentJob := by
    rw [Worker.adopt_currentJob, if_pos hid]
  have hb : (worker.adopt w watch).blobs = worker.blobs := by
    rw [Worker.adopt_blobs, if_pos hid]
  refine ⟨by rw [hb]; exact h.length, ?_, ?_, ?_⟩
  · intro hnone
    rw [hj] at hnone
    rw [hnone] at hid
    simpa using hid
  · intro job hsome
    rw [hj] at hsome
    exact (h.adopted job hsome).keep (by rw [hid, hsome]; rfl)
  · intro job hsome
    rw [hj] at hsome
    rw [hb]
    exact h.buffers job hsome

/-- Otherwise what was read is taken over. -/
theorem HasJob.adopt_other {reads : List (Option Job)} {worker : Worker}
    (h : HasJob reads worker) (w : Nat) {watch : Watch}
    (hid : watch.value.map Job.jobId ≠ worker.currentJob.map Job.jobId) :
    HasJob (reads ++ [watch.value]) (worker.adopt w watch) := by
  have hj : (worker.adopt w watch).currentJob = watch.value := by
    rw [Worker.adopt_currentJob, if_neg hid]
  have hb := Worker.adopt_blobs worker w watch
  rw [if_neg hid] at hb
  rw [h.latest] at hid
  cases hv : watch.value with
  | none =>
      simp only [hv] at hb
      refine ⟨by rw [hb]; exact h.length, fun _ => by simp, ?_, ?_⟩
      · intro job hsome
        rw [hj, hv] at hsome
        cases hsome
      · intro job hsome
        rw [hj, hv] at hsome
        cases hsome
  | some job =>
      simp only [hv] at hb hid
      refine ⟨by rw [hb, List.length_map]; exact h.length, ?_, ?_, ?_⟩
      · intro hnone
        rw [hj, hv] at hnone
        cases hnone
      · intro job' hsome
        rw [hj, hv] at hsome
        obtain rfl := Option.some.inj hsome
        exact Adopted.new fun he => hid he.symm
      · intro job' hsome
        rw [hj, hv] at hsome
        obtain rfl := Option.some.inj hsome
        refine ⟨by rw [hb, List.length_map]; exact h.length, fun buffer hmem => ?_⟩
        rw [hb] at hmem
        obtain ⟨_, _, rfl⟩ := List.mem_map.mp hmem
        exact fun _ => rfl

theorem HasJob.adopt {reads : List (Option Job)} {worker : Worker} (h : HasJob reads worker)
    (w : Nat) (watch : Watch) : HasJob (reads ++ [watch.value]) (worker.adopt w watch) := by
  by_cases hid : watch.value.map Job.jobId = worker.currentJob.map Job.jobId
  · exact h.adopt_same w hid
  · exact h.adopt_other w hid

/-- The VM of a worker is the last one it created, from the dataset the cache
returned for the seed and algo the worker remembers. -/
structure HasVm (w : Nat) (tr : List MinerObs) (worker : Worker) (vm : Vm) (job : Job) :
    Prop where
  seed : worker.currentSeed = some job.seed
  algo : worker.currentAlgo = some job.algo
  last : (vms w tr).getLast? = some (job, vm)
  returned : .cache (.returned w (.ofJob job) (some vm.dataset)) ∈ tr

structure WorkerSound (w : Nat) (tr : List MinerObs) (worker : Worker) (caller : Caller) :
    Prop where
  job : HasJob (reads w tr) worker
  vm : ∀ vm, worker.vm = some vm → ∃ job, HasVm w tr worker vm job
  mining : worker.phase = .mining →
    ∃ job, worker.currentJob = some job ∧ worker.needsVm job = false
  inCache : worker.phase = .inCache →
    ∃ job, worker.currentJob = some job ∧ caller.request = some (.ofJob job)

theorem Vm.dataset_of_new {dataset : Dataset} {available : Bool} {vm : Vm}
    (h : Vm.new dataset available = some vm) : vm.dataset = dataset := by
  unfold Vm.new at h
  split at h
  · cases h
  · split at h
    · cases h
      rfl
    · cases h

theorem needsVm_eq_false {worker : Worker} {job : Job}
    (hs : worker.currentSeed = some job.seed) (ha : worker.currentAlgo = some job.algo) :
    worker.needsVm job = false := by
  simp [Worker.needsVm, hs, ha]

section WorkerSound

variable {w : Nat} {tr os : List MinerObs} {worker worker' : Worker} {caller caller' : Caller}

/-- Steps of others: they make no observation of this worker and leave its
call in the cache as it is. -/
theorem WorkerSound.frame (h : WorkerSound w tr worker caller) (hr : reads w os = [])
    (hv : vms w os = []) (hc : caller'.request = caller.request) :
    WorkerSound w (tr ++ os) worker caller' where
  job := by
    rw [reads_append, hr, List.append_nil]
    exact h.job
  vm vm hvm := by
    obtain ⟨job, hjob⟩ := h.vm vm hvm
    refine ⟨job, hjob.seed, hjob.algo, ?_, List.mem_append_left _ hjob.returned⟩
    rw [vms_append, hv, List.append_nil]
    exact hjob.last
  mining := h.mining
  inCache hp := by
    rw [hc]
    exact h.inCache hp

/-- A worker that moves on with the job, buffers, seed, algo and VM it has. -/
theorem WorkerSound.setPhase (h : WorkerSound w tr worker caller)
    (hj : worker'.currentJob = worker.currentJob) (hb : worker'.blobs = worker.blobs)
    (hs : worker'.currentSeed = worker.currentSeed)
    (ha : worker'.currentAlgo = worker.currentAlgo) (hv : worker'.vm = worker.vm)
    (hmining : worker'.phase ≠ .mining) (hcache : worker'.phase ≠ .inCache) :
    WorkerSound w tr worker' caller' where
  job :=
    { length := by rw [hb]; exact h.job.length
      idle := by rw [hj]; exact h.job.idle
      adopted := by rw [hj]; exact h.job.adopted
      buffers := by rw [hj, hb]; exact h.job.buffers }
  vm vm hvm := by
    rw [hv] at hvm
    obtain ⟨job, hjob⟩ := h.vm vm hvm
    exact ⟨job, by rw [hs]; exact hjob.seed, by rw [ha]; exact hjob.algo, hjob.last,
      hjob.returned⟩
  mining hp := absurd hp hmining
  inCache hp := absurd hp hcache

/-- The worker after a read, in the phase that the read chooses. -/
theorem WorkerSound.read (h : WorkerSound w tr worker caller) (watch : Watch)
    {phase : WorkerPhase} (hr : reads w os = [watch.value]) (hv : vms w os = [])
    (hmining : phase = .mining →
      ∃ job, (worker.adopt w watch).currentJob = some job ∧
        (worker.adopt w watch).needsVm job = false)
    (hcache : phase = .inCache →
      ∃ job, (worker.adopt w watch).currentJob = some job ∧
        caller'.request = some (.ofJob job)) :
    WorkerSound w (tr ++ os) { worker.adopt w watch with phase := phase } caller' where
  job := by
    have hadopt := h.job.adopt w watch
    rw [reads_append, hr]
    exact ⟨hadopt.length, hadopt.idle, hadopt.adopted, hadopt.buffers⟩
  vm vm hvm := by
    obtain ⟨job, hjob⟩ := h.vm vm (by simpa using hvm)
    refine ⟨job, by simpa using hjob.seed, by simpa using hjob.algo, ?_,
      List.mem_append_left _ hjob.returned⟩
    rw [vms_append, hv, List.append_nil]
    exact hjob.last
  mining := hmining
  inCache := hcache

/-- The worker with a VM from the dataset that the cache returned for its job. -/
theorem WorkerSound.newVm (h : WorkerSound w tr worker caller) {job : Job} {dataset : Dataset}
    {available : Bool} {vm : Vm} (hj : worker.currentJob = some job)
    (hvm : Vm.new dataset available = some vm) :
    WorkerSound w
      (tr ++ ([CacheObs.returned w (.ofJob job) (some dataset)].map .cache ++
        [.vmCreated w job vm]))
      { worker with
        phase := .mining, vm := some vm
        currentSeed := some job.seed, currentAlgo := some job.algo } caller' where
  job := by
    have hnoread : reads w ([CacheObs.returned w (.ofJob job) (some dataset)].map .cache ++
        [.vmCreated w job vm]) = [] := rfl
    rw [reads_append, hnoread, List.append_nil]
    exact ⟨h.job.length, h.job.idle, h.job.adopted, h.job.buffers⟩
  vm vm' hvm' := by
    cases hvm'
    refine ⟨job, rfl, rfl, ?_, ?_⟩
    · simp [vms, MinerObs.vmOf]
    · simp [Vm.dataset_of_new hvm]
  mining _ := ⟨job, hj, needsVm_eq_false rfl rfl⟩
  inCache := nofun

/-- The worker after a batch on its job. -/
theorem WorkerSound.mined (h : WorkerSound w tr worker caller) {job : Job} {nonce : UInt32}
    {blobs : List Bytes} {found : List Found} (hj : worker.currentJob = some job)
    (hb : BuffersOf job blobs) :
    WorkerSound w tr
      { worker with phase := .offering found, nonce := nonce, blobs := blobs } caller where
  job :=
    { length := hb.1
      idle := h.job.idle
      adopted := h.job.adopted
      buffers := fun job' hj' => by
        rw [hj] at hj'
        cases hj'
        exact hb }
  vm vm hvm := by
    obtain ⟨job, hjob⟩ := h.vm vm hvm
    exact ⟨job, hjob.seed, hjob.algo, hjob.last, hjob.returned⟩
  mining := nofun
  inCache := nofun

end WorkerSound

section WorkerStep

variable {config : MinerConfig} {s s' : MinerState} {i : MinerInput}
  {tr os : List MinerObs} {w : Nat}

def AllSound (s : MinerState) (tr : List MinerObs) : Prop :=
  ∀ v, WorkerSound v tr (s.workers v) (s.cache.callers v)

/-- A step of worker `w`: the others see nothing of it. -/
theorem AllSound.of_worker (h : AllSound s tr) (w : Nat)
    (hworkers : ∀ v, v ≠ w → s'.workers v = s.workers v)
    (hcallers : ∀ v, v ≠ w → s'.cache.callers v = s.cache.callers v)
    (hreads : ∀ v, v ≠ w → reads v os = []) (hvms : ∀ v, v ≠ w → vms v os = [])
    (hw : WorkerSound w (tr ++ os) (s'.workers w) (s'.cache.callers w)) :
    AllSound s' (tr ++ os) := by
  intro v
  by_cases hv : v = w
  · subst hv
    exact hw
  · rw [hworkers v hv]
    exact (h v).frame (hreads v hv) (hvms v hv) (by rw [hcallers v hv])

/-- A step that moves no worker and no call. -/
theorem AllSound.of_others (h : AllSound s tr) (hworkers : s'.workers = s.workers)
    (hcallers : ∀ v, (s'.cache.callers v).request = (s.cache.callers v).request)
    (hreads : ∀ v, reads v os = []) (hvms : ∀ v, vms v os = []) :
    AllSound s' (tr ++ os) := by
  intro v
  rw [hworkers]
  exact (h v).frame (hreads v) (hvms v) (hcallers v)

/-- A step of which nothing is seen, to a phase in which a worker needs neither VM nor call. -/
theorem AllSound.setWorker (h : AllSound s tr) {worker : Worker}
    (hj : worker.currentJob = (s.workers w).currentJob)
    (hb : worker.blobs = (s.workers w).blobs)
    (hseed : worker.currentSeed = (s.workers w).currentSeed)
    (halgo : worker.currentAlgo = (s.workers w).currentAlgo)
    (hvm : worker.vm = (s.workers w).vm)
    (hmining : worker.phase ≠ .mining) (hcache : worker.phase ≠ .inCache) :
    AllSound (s.setWorker w worker) (tr ++ []) := by
  refine h.of_worker w (fun v hv => by simp [hv]) (fun _ _ => rfl) (fun _ _ => rfl)
    (fun _ _ => rfl) ?_
  rw [MinerState.setWorker_self, List.append_nil]
  exact (h w).setPhase hj hb hseed halgo hvm hmining hcache

theorem reads_read_of_ne {v : Nat} (hv : v ≠ w) (latest : Option Job) :
    reads v [.read w latest] = [] := by
  simp [reads, MinerObs.readOf, Ne.symm hv]

theorem allSound_step (h : AllSound s tr)
    (hs : minerStep config s i = some (s', os)) : AllSound s' (tr ++ os) := by
  cases minerMoves_of_step hs with
  | publish _ => exact h.of_others rfl (fun _ => rfl) (fun _ => rfl) fun _ => rfl
  | dropSender => exact h.of_others rfl (fun _ => rfl) (fun _ => rfl) fun _ => rfl
  | @readNone w hp hj =>
      refine h.of_worker w (fun v hv => by simp [hv]) (fun _ _ => rfl)
        (fun v hv => reads_read_of_ne hv _) (fun _ _ => rfl) ?_
      rw [MinerState.setWorker_self]
      exact (h w).read s.watch (by simp [reads, MinerObs.readOf]) rfl (by simp) (by simp)
  | @readNewVm w job cache os hp hj hc =>
      obtain ⟨rfl, rfl⟩ := cacheStep_call hc
      refine h.of_worker w (fun v hv => by simp [hv]) (fun v hv => by simp [hv])
        (fun v hv => reads_read_of_ne hv _) (fun _ _ => rfl) ?_
      rw [MinerState.setCache_workers, MinerState.setWorker_self]
      refine (h w).read s.watch (by simp [reads, MinerObs.readOf]) rfl (by simp) fun _ => ?_
      exact ⟨job, hj, by simp [Caller.request]⟩
  | @readSameVm w job hp hj hv =>
      refine h.of_worker w (fun v hv => by simp [hv]) (fun _ _ => rfl)
        (fun v hv => reads_read_of_ne hv _) (fun _ _ => rfl) ?_
      rw [MinerState.setWorker_self]
      refine (h w).read s.watch (by simp [reads, MinerObs.readOf]) rfl (fun _ => ?_) (by simp)
      exact ⟨job, hj, hv⟩
  | changed _ _ =>
      exact h.setWorker rfl rfl rfl rfl rfl (by simp) (by simp)
  | exit _ _ =>
      exact h.setWorker rfl rfl rfl rfl rfl (by simp) (by simp)
  | @cache input cache os hi hc =>
      refine h.of_others rfl (fun v => ?_) (fun v => reads_cache v os) fun v => vms_cache v os
      refine cacheStep_request hc ?_ ?_ v
      · rintro w req rfl
        cases hi
      · rintro w rfl
        cases hi
  | @newVm w available job req dataset vm cache os hp hj hr hc hvm =>
      obtain ⟨rfl, rfl⟩ := cacheStep_ret hr hc
      obtain ⟨job', hj', hreq⟩ := (h w).inCache hp
      rw [hj] at hj'
      cases hj'
      rw [hr] at hreq
      obtain rfl : req = .ofJob job := by simpa [Caller.request] using hreq
      refine h.of_worker w (fun v hv => by simp [hv]) (fun v hv => by simp [hv])
        (fun _ _ => rfl) (fun v hv => by simp [vms, MinerObs.vmOf, Ne.symm hv]) ?_
      rw [MinerState.setCache_workers, MinerState.setWorker_self]
      exact (h w).newVm hj hvm
  | @noVm w available job cache os hp hj hc =>
      cases cacheMoves_of_step hc with
      | ret hr =>
          refine h.of_worker w (fun v hv => by simp [hv]) (fun v hv => by simp [hv])
            (fun _ _ => rfl) (fun _ _ => rfl) ?_
          rw [MinerState.setCache_workers, MinerState.setWorker_self]
          exact ((h w).frame rfl rfl rfl).setPhase rfl rfl rfl rfl rfl (by simp) (by simp)
  | @batch w job vm batch hp hj hv hb =>
      refine h.of_worker w (fun v hv => by simp [hv]) (fun _ _ => rfl) (fun _ _ => rfl)
        (fun _ _ => rfl) ?_
      rw [MinerState.setWorker_self]
      obtain ⟨q, hswept⟩ := mineOneBatch_swept (config.hash vm.dataset) config.threadCount
        (s.workers w).nonce ((h w).job.buffers job hj)
      rw [← hb] at hswept
      exact ((h w).frame rfl rfl rfl).mined hj hswept.buffers
  | noBatch _ =>
      exact h.setWorker rfl rfl rfl rfl rfl (by simp) (by simp)
  | offered _ =>
      exact h.setWorker rfl rfl rfl rfl rfl (by simp) (by simp)
  | @offer w found rest sent hp hsent =>
      subst hsent
      refine h.of_worker w (fun v hv => by simp [hv]) (fun _ _ => by simp) (fun _ _ => rfl)
        (fun _ _ => rfl) ?_
      rw [MinerState.trySend_workers, MinerState.setWorker_self]
      exact ((h w).frame rfl rfl rfl).setPhase rfl rfl rfl rfl rfl (by simp) (by simp)
  | pop _ => exact h.of_others rfl (fun _ => rfl) (fun _ => rfl) fun _ => rfl

theorem allSound_start (T : UInt32) : AllSound (.start T) [] := by
  intro w
  have hcurrent : ((MinerState.start T).workers w).currentJob = none := by
    simp only [MinerState.start]
    split <;> rfl
  have hvm : ((MinerState.start T).workers w).vm = none := by
    simp only [MinerState.start]
    split <;> rfl
  have hphase : ((MinerState.start T).workers w).phase = .head ∨
      ((MinerState.start T).workers w).phase = .exited := by
    simp only [MinerState.start]
    split
    · exact Or.inl rfl
    · exact Or.inr rfl
  have hblobs : ((MinerState.start T).workers w).blobs.length = pipelineSize := by
    simp only [MinerState.start]
    split <;> rfl
  refine ⟨⟨hblobs, fun _ => rfl, ?_, ?_⟩, ?_, ?_, ?_⟩
  · simp [hcurrent]
  · simp [hcurrent]
  · simp [hvm]
  · rcases hphase with hp | hp <;> simp [hp]
  · rcases hphase with hp | hp <;> simp [hp]

theorem allSound_of_run {is : List MinerInput} {ok : MinerState → MinerInput → Prop}
    (h : Run (minerStep config) ok (.start config.threadCount) is s tr) : AllSound s tr :=
  h.invariant (allSound_start _) fun hsound _ hs => allSound_step hsound hs

/-! ## The batches -/

/-- A batch observation is made by a worker that mines, and it shows what the
worker held. -/
theorem batch_of_step {job : Job} {vm : Vm} {nonce : UInt32} {blobs : List Bytes}
    {result : Batch} {pre post : List MinerObs}
    (hs : minerStep config s i = some (s', os))
    (hos : os = pre ++ .batch w job vm nonce blobs result :: post) :
    pre = [] ∧ (s.workers w).phase = .mining ∧ (s.workers w).currentJob = some job ∧
      (s.workers w).vm = some vm ∧ blobs = (s.workers w).blobs ∧
      result = mineOneBatch (config.hash vm.dataset) job config.threadCount nonce blobs := by
  have hmem : MinerObs.batch w job vm nonce blobs result ∈ os := by simp [hos]
  cases minerMoves_of_step hs with
  | batch hp hj hv hb =>
      obtain ⟨rfl, rfl, rfl, rfl, rfl, rfl⟩ := by simpa using hmem
      obtain ⟨rfl, _⟩ : pre = [] ∧ [] = post := by
        cases pre with
        | nil => simpa using hos
        | cons x pre => simp at hos
      exact ⟨rfl, hp, hj, hv, rfl, hb⟩
  | _ => simp at hmem

/-- What a batch worked with, given what was observed before it. -/
structure BatchOfJob (config : MinerConfig) (pre : List MinerObs) (w : Nat) (job : Job)
    (vm : Vm) (nonce : UInt32) (blobs : List Bytes) (result : Batch) : Prop where
  /-- The job is the one read when the job id last changed. -/
  adopted : Adopted (reads w pre) job
  /-- The buffers are its blob, up to the nonce under its mask. -/
  buffers : BuffersOf job blobs
  /-- The VM is the worker's latest, and was made with the job's algo and seed. -/
  latestVm : ∃ vmJob, (vms w pre).getLast? = some (vmJob, vm) ∧
    Request.ofJob vmJob = Request.ofJob job
  returned : .cache (.returned w (.ofJob job) (some vm.dataset)) ∈ pre
  /-- The hashes and shares are those of the job's slots, tested against its
  difficulty. -/
  mined : result = mineOneBatch (config.hash vm.dataset) job config.threadCount nonce blobs
  swept : ∃ q, Swept (config.hash vm.dataset) job config.threadCount 64 q nonce result

theorem batchOfJob_of_sound {job : Job} {vm : Vm} {nonce : UInt32} {blobs : List Bytes}
    {result : Batch} (h : WorkerSound w tr (s.workers w) (s.cache.callers w))
    (hp : (s.workers w).phase = .mining) (hj : (s.workers w).currentJob = some job)
    (hv : (s.workers w).vm = some vm) (hb : blobs = (s.workers w).blobs)
    (hr : result = mineOneBatch (config.hash vm.dataset) job config.threadCount nonce blobs) :
    BatchOfJob config tr w job vm nonce blobs result := by
  obtain ⟨vmJob, hvm⟩ := h.vm vm hv
  obtain ⟨job', hj', hneeds⟩ := h.mining hp
  rw [hj] at hj'
  cases hj'
  have hsame : Request.ofJob vmJob = Request.ofJob job := by
    simp only [Worker.needsVm, hvm.seed, hvm.algo] at hneeds
    obtain ⟨hseed, halgo⟩ : vmJob.seed = job.seed ∧ vmJob.algo = job.algo := by
      simpa using hneeds
    simp [Request.ofJob, hseed, halgo]
  have hbuffers : BuffersOf job blobs := hb ▸ h.job.buffers job hj
  refine ⟨h.job.adopted job hj, hbuffers, ⟨vmJob, hvm.last, hsame⟩, ?_, hr, ?_⟩
  · rw [← hsame]
    exact hvm.returned
  · rw [hr]
    exact mineOneBatch_swept _ _ _ hbuffers

end WorkerStep

/-- Every batch of every run works with one adopted job throughout. -/
theorem batch_uses_adopted_job (config : MinerConfig) {is : List MinerInput}
    {s : MinerState} {tr : List MinerObs}
    (h : Run (minerStep config) (fun _ _ => True) (.start config.threadCount) is s tr) :
    Justified (fun pre x => ∀ w job vm nonce blobs result,
      x = .batch w job vm nonce blobs result →
        BatchOfJob config pre w job vm nonce blobs result) tr := by
  refine h.justified ?_
  intro is s s' tr os i hrun _ hs pre x post hos w job vm nonce blobs result hx
  subst hx
  obtain ⟨rfl, hp, hj, hv, hb, hr⟩ := batch_of_step hs hos
  rw [List.append_nil]
  exact batchOfJob_of_sound (allSound_of_run hrun w) hp hj hv hb hr

/-! ### A job published again under its id -/

/-- Only jobs with a supported algorithm are published. -/
def PublishesSupported (_ : MinerState) (i : MinerInput) : Prop :=
  ∀ job, i = .publish job → Algorithms.isSupported job.algo = true

/-- One thread, and a hash that is never a share. -/
def worstConfig : MinerConfig :=
  { hash := fun _ _ => ⟨List.replicate hashSize 255, rfl⟩, threadCount := 1 }

/-- The pool sends a job, the worker makes its VM and mines a batch; the pool
sends the id again with a reserved byte in the blob, and the worker reads that
and mines on. -/
def republishedRun : List MinerInput :=
  [.publish zeroBlobJob, .read 0, .cache (.lock 0), .cache (.built 0 true),
    .cache (.store 0), .createVm 0 true, .mine 0, .offer 0, .publish reservedByteJob,
    .read 0, .mine 0]

/-- A batch on a job that is not the one read last. -/
def staleBatch (pre : List MinerObs) : MinerObs → Bool
  | .batch w job _ _ _ _ =>
      match (reads w pre).getLast? with
      | some (some latest) =>
          latest.jobId = job.jobId ∧ latest.blobBytes ≠ job.blobBytes ∧
            latest.nonceMask ≠ job.nonceMask
      | _ => false
  | _ => false

theorem republishedRun_exec :
    (exec (minerStep worstConfig) (.start 1) republishedRun).any
      (fun r => endsWith staleBatch r.2) = true := by
  decide +kernel

theorem publishes_of_mem_republishedRun {t : MinerState} {i : MinerInput}
    (hi : i ∈ republishedRun) : PublishesSupported t i := by
  intro job hi'
  subst hi'
  simp only [republishedRun, List.mem_cons, MinerInput.publish.injEq, reduceCtorEq,
    List.not_mem_nil, or_false, false_or] at hi
  rcases hi with rfl | rfl <;> decide

/-- The batches of that run each work with the job that was adopted. -/
theorem batch_uses_adopted_job_republished :
    ∃ s tr, endsWith staleBatch tr = true ∧
      Run (minerStep worstConfig) (fun _ _ => True) (.start 1) republishedRun s tr ∧
      Justified (fun pre x => ∀ w job vm nonce blobs result,
        x = .batch w job vm nonce blobs result →
          BatchOfJob worstConfig pre w job vm nonce blobs result) tr := by
  obtain ⟨s, tr, hrun, hstale⟩ := run_of_exec_test (p := fun _ tr => endsWith staleBatch tr)
    republishedRun_exec fun _ _ _ => trivial
  exact ⟨s, tr, hstale, hrun, batch_uses_adopted_job worstConfig hrun⟩

/-- A job read under an unchanged id is not taken over: the batch that follows
uses the blob and the mask of the job before. -/
theorem republished_job_not_adopted :
    ∃ is s tr, Run (minerStep worstConfig) PublishesSupported (.start 1) is s tr ∧
      ∃ pre post w job latest vm nonce blobs result,
        tr = pre ++ .batch w job vm nonce blobs result :: post ∧
        (reads w pre).getLast? = some (some latest) ∧ latest.jobId = job.jobId ∧
        latest.blobBytes ≠ job.blobBytes ∧ latest.nonceMask ≠ job.nonceMask := by
  obtain ⟨s, tr, hrun, hstale⟩ := run_of_exec_test (p := fun _ tr => endsWith staleBatch tr)
    republishedRun_exec fun _ _ hi => publishes_of_mem_republishedRun hi
  obtain ⟨pre, x, rfl, hx⟩ := exists_of_endsWith hstale
  refine ⟨republishedRun, s, _, hrun, ?_⟩
  unfold staleBatch at hx
  split at hx
  · next w job vm nonce blobs result =>
      split at hx
      · next latest hread =>
          obtain ⟨hid, hblob, hmask⟩ := of_decide_eq_true hx
          exact ⟨pre, [], w, job, latest, vm, nonce, blobs, result, rfl, hread, hid, hblob,
            hmask⟩
      · cases hx
  · cases hx

/-! ## The datasets of the batches -/

def MinerObs.cacheOf : MinerObs → Option CacheObs
  | .cache o => some o
  | _ => none

@[simp] theorem filterMap_cacheOf_map (os : List CacheObs) :
    (os.map MinerObs.cache).filterMap MinerObs.cacheOf = os := by
  rw [List.filterMap_map]
  exact List.filterMap_some

theorem mem_cacheOf {o : CacheObs} {tr : List MinerObs} :
    o ∈ tr.filterMap MinerObs.cacheOf ↔ .cache o ∈ tr := by
  rw [List.mem_filterMap]
  constructor
  · rintro ⟨x, hx, ho⟩
    cases x <;> simp only [MinerObs.cacheOf] at ho <;> cases ho
    exact hx
  · exact fun h => ⟨.cache o, h, rfl⟩

/-- The threads use the cache with well-formed arguments only. -/
theorem cacheRun_of_run {config : MinerConfig} {is : List MinerInput} {s : MinerState}
    {tr : List MinerObs}
    (h : Run (minerStep config) PublishesSupported (.start config.threadCount) is s tr) :
    ∃ js, Run cacheStep (fun _ j => ∀ w req, j = .call w req → req.WellFormed seedBytesOf)
      .new js s.cache (tr.filterMap MinerObs.cacheOf) := by
  have hjobs := h.withInvariant (jobsFrom_start (fun job => Algorithms.isSupported job.algo) _)
    fun hj hok hs => jobsFrom_step hj hok hs
  refine hjobs.project (fun s => s.cache) MinerObs.cacheOf ?_
  intro s s' os i hok hs
  have hsupported := hok.2
  cases minerMoves_of_step hs with
  | @readNewVm w job cache os hp hj hc =>
      have hadopted : Worker.JobsFrom (fun job => Algorithms.isSupported job.algo)
          { (s.workers w).adopt w s.watch with phase := .inCache } := hsupported.adopt (by simp)
      have hjob := hadopted.current job hj
      refine Or.inr ⟨.call w (.ofJob job), ?_, ?_⟩
      · intro w' req heq
        cases heq
        exact ⟨hjob, rfl⟩
      · rw [List.filterMap_cons_none rfl, filterMap_cacheOf_map]
        exact hc
  | @cache input cache os hi hc =>
      refine Or.inr ⟨input, ?_, ?_⟩
      · rintro w req rfl
        cases hi
      · rw [filterMap_cacheOf_map]
        exact hc
  | @newVm w available job req dataset vm cache os hp hj hr hc hvm =>
      refine Or.inr ⟨.ret w, by simp, ?_⟩
      rw [List.filterMap_append, filterMap_cacheOf_map, List.filterMap_cons_none rfl,
        List.filterMap_nil, List.append_nil]
      exact hc
  | @noVm w available job cache os hp hj hc =>
      refine Or.inr ⟨.ret w, by simp, ?_⟩
      rw [filterMap_cacheOf_map]
      exact hc
  | offer hp hsent =>
      subst hsent
      exact Or.inl ⟨by simp, rfl⟩
  | _ => exact Or.inl ⟨rfl, rfl⟩

/-- Every batch for a job hashes with a dataset that was built by a build
called with the job's algo and the seed bytes of the job. -/
theorem batch_dataset_built_for_job (config : MinerConfig) {is : List MinerInput}
    {s : MinerState} {tr : List MinerObs}
    (h : Run (minerStep config) PublishesSupported (.start config.threadCount) is s tr) :
    Justified (fun pre x => ∀ w job vm nonce blobs result,
      x = .batch w job vm nonce blobs result →
        vm.dataset = { algo := job.algo, seed := seedBytesOf job.seed } ∧
          (∃ v, .cache (.built v (.ofJob job) (some vm.dataset)) ∈ pre) ∧
          result = mineOneBatch (config.hash vm.dataset) job config.threadCount nonce blobs)
      tr := by
  refine h.justified ?_
  intro is s s' tr os i hrun _ hs pre x post hos w job vm nonce blobs result hx
  subst hx
  obtain ⟨rfl, hp, hj, hv, hb, hr⟩ := batch_of_step hs hos
  have hbatch : BatchOfJob config tr w job vm nonce blobs result :=
    batchOfJob_of_sound (allSound_of_run hrun w) hp hj hv hb hr
  obtain ⟨js, hcache⟩ := cacheRun_of_run hrun
  obtain ⟨hdataset, v, hbuilt⟩ :=
    (cacheSound_of_run hcache).returned_built (mem_cacheOf.mpr hbatch.returned)
  rw [List.append_nil]
  exact ⟨hdataset, ⟨v, mem_cacheOf.mp hbuilt⟩, hr⟩

theorem batch_dataset_republished :
    ∃ s tr, endsWith staleBatch tr = true ∧
      Run (minerStep worstConfig) PublishesSupported (.start 1) republishedRun s tr ∧
      Justified (fun pre x => ∀ w job vm nonce blobs result,
        x = .batch w job vm nonce blobs result →
          vm.dataset = { algo := job.algo, seed := seedBytesOf job.seed } ∧
            (∃ v, .cache (.built v (.ofJob job) (some vm.dataset)) ∈ pre) ∧
            result = mineOneBatch (worstConfig.hash vm.dataset) job worstConfig.threadCount
              nonce blobs) tr := by
  obtain ⟨s, tr, hrun, hstale⟩ := run_of_exec_test (p := fun _ tr => endsWith staleBatch tr)
    republishedRun_exec fun _ _ hi => publishes_of_mem_republishedRun hi
  exact ⟨s, tr, hstale, hrun, batch_dataset_built_for_job worstConfig hrun⟩

end LiteXmr
