/-
LiteXmr.Miner.IterationTheorems — workers that spin.

A worker that cannot make its VM goes back to the head of its loop, with the job it
has. When the dataset was built in that iteration, or another thread was waited for,
time has passed. The next time the cache remembers that the build has failed, and
answers at once: the worker is where it was, and does the same again
(`exec_spin`), as long as no other job comes.

`iterations_progress` says that this is the only way, but for a VM that cannot be
made for a dataset that is there: without these two, every iteration that ends with a
job has hashed, slept or waited.
-/
import LiteXmr.Miner.Iteration
import LiteXmr.Miner.WorkerTheorems

namespace LiteXmr

open Lts

/-! ## A batch does something -/

theorem length_fillPipeline (mask threadCount nonce : UInt32) (blobs : List Bytes) :
    (fillPipeline mask threadCount nonce blobs).blobs.length = blobs.length := by
  induction blobs generalizing nonce with
  | nil => rfl
  | cons blob blobs ih =>
      rw [fillPipeline]
      split
      · rfl
      · simp only [List.length_cons, ih]

/-- A round that is not cut short hashes all the buffers it fills. -/
theorem length_mineRound (hash : Bytes → Hash) (job : Job) (threadCount : UInt32) (count : Nat)
    (nonce : UInt32) (blobs : List Bytes)
    (h : (mineRound hash job threadCount count nonce blobs).exhausted = false) :
    (mineRound hash job threadCount count nonce blobs).hashed.length
      = (blobs.take count).length := by
  unfold mineRound at h ⊢
  simp only at h ⊢
  split
  · next hstop =>
      rw [if_pos hstop] at h
      cases h
  · exact length_fillPipeline _ _ _ _

theorem mineRounds_worked (hash : Bytes → Hash) (job : Job) (threadCount : UInt32)
    (fuel : Nat) {remaining : Nat} (hremaining : remaining ≠ 0) (nonce : UInt32)
    {blobs : List Bytes} (hblobs : blobs ≠ []) :
    (mineRounds hash job threadCount (fuel + 1) remaining nonce blobs).worked = true := by
  rw [mineRounds, if_neg hremaining]
  simp only
  split
  · next hstop => rw [Batch.worked, hstop, Bool.or_true]
  · next hfull =>
      have hlen := length_mineRound hash job threadCount _ nonce blobs (Bool.eq_false_iff.mpr hfull)
      have hpos : 0 < (blobs.take (min remaining pipelineSize)).length := by
        have := List.length_pos_iff.mpr hblobs
        rw [List.length_take, pipelineSize]
        omega
      rw [Batch.worked, Batch.append, List.isEmpty_eq_false_iff.mpr, Bool.not_false, Bool.true_or]
      intro hnil
      rw [(List.append_eq_nil_iff.mp hnil).1] at hlen
      exact absurd hlen (Nat.ne_of_lt hpos)

/-- A batch hashes at least one buffer, or sleeps. -/
theorem mineOneBatch_worked (hash : Bytes → Hash) (job : Job) (threadCount nonce : UInt32)
    {blobs : List Bytes} (h : blobs.length = pipelineSize) :
    (mineOneBatch hash job threadCount nonce blobs).worked = true := by
  refine mineRounds_worked hash job threadCount 1023 (by decide) nonce ?_
  rintro rfl
  cases h

/-! ## What a watched step is -/

section

variable {config : MinerConfig} {s s' : Watched} {i : MinerInput} {ended : List Iteration}

theorem watchStep_of_miner {miner : MinerState} {os : List MinerObs}
    (h : minerStep config s.miner i = some (miner, os)) :
    watchStep config s i = some (⟨miner, progressAfter s os i⟩,
      iterationsOf s.miner ⟨miner, progressAfter s os i⟩ i) := by
  simp only [watchStep, h]

theorem watchStep_eq_some (h : watchStep config s i = some (s', ended)) :
    ∃ os, minerStep config s.miner i = some (s'.miner, os) ∧
      s'.progressed = progressAfter s os i ∧ ended = iterationsOf s.miner s' i := by
  cases hs : minerStep config s.miner i with
  | none =>
      simp only [watchStep, hs] at h
      cases h
  | some moved =>
      rw [watchStep_of_miner hs] at h
      cases h
      exact ⟨moved.2, rfl, rfl, rfl⟩

/-- An iteration is over when its worker comes back to the head. -/
theorem mem_iterationsOf {miner : MinerState} {iteration : Iteration}
    (h : iteration ∈ iterationsOf miner s' i) :
    i.worker = some iteration.worker ∧ (miner.workers iteration.worker).phase ≠ .head ∧
      (s'.miner.workers iteration.worker).phase = .head ∧
      iteration.progressed = s'.progressed iteration.worker := by
  obtain ⟨w, hw, hjob⟩ := Option.bind_eq_some_iff.mp (Option.mem_toList.mp h)
  obtain ⟨job, hended, rfl⟩ := Option.map_eq_some_iff.mp hjob
  unfold endedJob at hended
  split at hended
  · next hphase => exact ⟨hw, hphase.1, hphase.2, rfl⟩
  · cases hended

/-- Every run of the miner can be watched. -/
theorem exists_watched {is : List MinerInput} {miner : MinerState} {tr : List MinerObs}
    {threadCount : UInt32}
    (h : Run (minerStep config) (fun _ _ => True) (.start threadCount) is miner tr) :
    ∃ progressed ended, Run (watchStep config) (fun _ _ => True) (.start threadCount) is
      ⟨miner, progressed⟩ ended := by
  induction h with
  | nil => exact ⟨_, _, Run.nil⟩
  | snoc _ _ hs ih =>
      obtain ⟨progressed, ended, hrun⟩ := ih
      exact ⟨_, _, hrun.snoc trivial (watchStep_of_miner hs)⟩

end

/-! ## The invariant -/

/-- A call that has slept or built, or that returns without a dataset. -/
def Caller.blocked : Caller → Bool
  | .waiting _ | .building _ | .storing _ _ | .returned _ none => true
  | .idle | .locking _ | .returned _ (some _) => false

structure WorkerWatched (worker : Worker) (caller : Caller) (progressed : Bool) : Prop where
  vm : worker.currentSeed ≠ none → worker.vm ≠ none
  blocked : caller.blocked = true → progressed = true
  idle : worker.phase ≠ .inCache → caller = .idle
  offering : ∀ found, worker.phase = .offering found → progressed = true

def AllWatched (s : Watched) : Prop :=
  ∀ w, WorkerWatched (s.miner.workers w) (s.miner.cache.callers w) (s.progressed w)

section

variable {config : MinerConfig} {s : Watched} {miner : MinerState} {progressed : Nat → Bool}
  {os : List MinerObs} {i : MinerInput}

/-- A step of worker `w`: the others stay as they are. -/
theorem AllWatched.of_worker (h : AllWatched s) (w : Nat)
    (hworkers : ∀ v, v ≠ w → miner.workers v = s.miner.workers v)
    (hcallers : ∀ v, v ≠ w → miner.cache.callers v = s.miner.cache.callers v)
    (hprogressed : ∀ v, v ≠ w → progressed v = s.progressed v)
    (hw : WorkerWatched (miner.workers w) (miner.cache.callers w) (progressed w)) :
    AllWatched ⟨miner, progressed⟩ := by
  intro v
  by_cases hv : v = w
  · rw [hv]
    exact hw
  · change WorkerWatched (miner.workers v) (miner.cache.callers v) (progressed v)
    rw [hworkers v hv, hcallers v hv, hprogressed v hv]
    exact h v

/-- A worker outside of the cache, with the seed and the VM it had. -/
theorem WorkerWatched.setPhase {worker worker' : Worker} {caller : Caller} {p p' : Bool}
    (h : WorkerWatched worker caller p) (hcaller : caller = .idle)
    (hs : worker'.currentSeed = worker.currentSeed) (hv : worker'.vm = worker.vm)
    (hoffering : ∀ found, worker'.phase = .offering found → p' = true) :
    WorkerWatched worker' caller p' where
  vm := by rw [hs, hv]; exact h.vm
  blocked := by rw [hcaller]; exact nofun
  idle _ := hcaller
  offering := hoffering

theorem allWatched_start (threadCount : UInt32) : AllWatched (.start threadCount) := by
  intro w
  have hcaller : (Watched.start threadCount).miner.cache.callers w = .idle := rfl
  have hworker : ((Watched.start threadCount).miner.workers w).currentSeed = none ∧
      ∀ found, ((Watched.start threadCount).miner.workers w).phase ≠ .offering found := by
    simp only [Watched.start, MinerState.start]
    split
    · exact ⟨rfl, fun _ h => by cases h⟩
    · exact ⟨rfl, fun _ h => by cases h⟩
  exact { vm := fun hne => absurd hworker.1 hne
          blocked := fun hblocked => by
            rw [hcaller] at hblocked
            cases hblocked
          idle := fun _ => hcaller
          offering := fun found hp => absurd hp (hworker.2 found) }

/-- A call in the cache moves on; its worker waits for it. -/
theorem WorkerWatched.setCaller {worker : Worker} {caller caller' : Caller} {p p' : Bool}
    (h : WorkerWatched worker caller p) (hcaller : caller ≠ .idle)
    (hblocked : caller'.blocked = true → p' = true) : WorkerWatched worker caller' p' where
  vm := h.vm
  blocked := hblocked
  idle hp := absurd (h.idle hp) hcaller
  offering found hp := absurd (h.idle (by rw [hp]; exact nofun)) hcaller

theorem WorkerWatched.notify {worker : Worker} {caller : Caller} {p : Bool}
    (h : WorkerWatched worker caller p) : WorkerWatched worker caller.notify p where
  vm := h.vm
  blocked hblocked := by
    cases caller with
    | waiting req => exact h.blocked rfl
    | _ => exact h.blocked hblocked
  idle hp := by rw [h.idle hp]; rfl
  offering := h.offering

/-- A step of one call. -/
theorem AllWatched.of_caller (h : AllWatched s) {w : Nat} {cache : RxDatasetCache}
    {caller : Caller} (hidle : s.miner.cache.callers w ≠ .idle)
    (hcallers : cache.callers = Function.update s.miner.cache.callers w caller)
    (hprogressed : ∀ v, v ≠ w → progressed v = s.progressed v)
    (hblocked : caller.blocked = true → progressed w = true) :
    AllWatched ⟨s.miner.setCache cache, progressed⟩ := by
  refine h.of_worker w (fun _ _ => rfl) (fun v hv => ?_) hprogressed ?_
  · rw [MinerState.setCache_cache, hcallers, Function.update_of_ne hv]
  · rw [MinerState.setCache_cache, hcallers, Function.update_self]
    exact (h w).setCaller hidle hblocked

/-- A step of a worker outside of the cache, with the seed and the VM it had. -/
theorem AllWatched.setWorker (h : AllWatched s) {w : Nat} {worker : Worker}
    (hp : (s.miner.workers w).phase ≠ .inCache)
    (hs : worker.currentSeed = (s.miner.workers w).currentSeed)
    (hv : worker.vm = (s.miner.workers w).vm)
    (hprogressed : ∀ v, v ≠ w → progressed v = s.progressed v)
    (hoffering : ∀ found, worker.phase = .offering found → progressed w = true) :
    AllWatched ⟨s.miner.setWorker w worker, progressed⟩ := by
  refine h.of_worker w (fun v hv => by simp [hv]) (fun _ _ => rfl) hprogressed ?_
  rw [MinerState.setWorker_self]
  exact (h w).setPhase ((h w).idle hp) hs hv hoffering

/-- A worker calls the cache, or its call comes back. -/
theorem AllWatched.setWorker_setCaller (h : AllWatched s) {w : Nat} {worker : Worker}
    {caller : Caller} (hprogressed : ∀ v, v ≠ w → progressed v = s.progressed v)
    (hw : WorkerWatched worker caller (progressed w)) :
    AllWatched ⟨(s.miner.setWorker w worker).setCache (s.miner.cache.setCaller w caller),
      progressed⟩ := by
  refine h.of_worker w (fun v hv => by simp [hv]) (fun v hv => by simp [hv]) hprogressed ?_
  rw [MinerState.setCache_workers, MinerState.setWorker_self, MinerState.setCache_cache,
    RxDatasetCache.setCaller_self]
  exact hw

theorem allWatched_cache {input : CacheInput} {cache : RxDatasetCache} {cos : List CacheObs}
    (h : AllWatched s) (hok : s.givesUp (.cache input) = false)
    (hi : input.isInternal = true) (hc : cacheStep s.miner.cache input = some (cache, cos)) :
    AllWatched ⟨s.miner.setCache cache, progressAfter s os (.cache input)⟩ := by
  cases cacheMoves_of_step hc with
  | call _ => cases hi
  | ret _ => cases hi
  | @hit w req dataset hw hstate =>
      exact h.of_caller (by rw [hw]; exact nofun) rfl (fun v hv => Function.update_of_ne hv _ _)
        nofun
  | @miss w req hw hstate =>
      -- the worker has built or waited, or the step gives up
      have hlook : s.miner.cache.state.look req.cacheKey = .failed := by
        rw [hstate]
        exact if_pos rfl
      simp only [Watched.givesUp, hw, hlook, Bool.not_eq_false'] at hok
      refine h.of_caller (by rw [hw]; exact nofun) rfl
        (fun v hv => Function.update_of_ne hv _ _) fun _ => ?_
      simp only [progressAfter, Function.update_self, hok, Bool.true_or]
  | @wait w req hw hstate =>
      have hlook : s.miner.cache.state.look req.cacheKey = .wait := by
        rw [hstate]
        exact if_pos rfl
      refine h.of_caller (by rw [hw]; exact nofun) rfl
        (fun v hv => Function.update_of_ne hv _ _) fun _ => ?_
      simp only [progressAfter, Function.update_self, RxDatasetCache.blocks, hw, hlook,
        Bool.or_true]
  | @claim w req hw hlook =>
      refine h.of_caller (by rw [hw]; exact nofun) rfl
        (fun v hv => Function.update_of_ne hv _ _) fun _ => ?_
      simp only [progressAfter, Function.update_self, RxDatasetCache.blocks, hw, hlook,
        Bool.or_true]
  | @wake w req hw =>
      exact h.of_caller (by rw [hw]; exact nofun) rfl (fun _ _ => rfl) nofun
  | @built w available req dataset hw hd =>
      refine h.of_caller (by rw [hw]; exact nofun) rfl (fun _ _ => rfl) fun _ => ?_
      exact (h w).blocked (by rw [hw]; rfl)
  | @store w req dataset hw =>
      intro v
      by_cases hv : v = w
      · subst hv
        exact (h v).setCaller (by rw [hw]; exact nofun) fun _ => (h v).blocked (by rw [hw]; rfl)
      · have hnotify : Function.update (fun u => (s.miner.cache.callers u).notify) w
            (.returned req dataset) v = (s.miner.cache.callers v).notify :=
          Function.update_of_ne hv _ _
        have hwatched := (h v).notify
        rw [← hnotify] at hwatched
        exact hwatched

theorem allWatched_step {tr : List MinerObs} (h : AllWatched s) (hsound : AllSound s.miner tr)
    (hok : s.givesUp i = false) (hs : minerStep config s.miner i = some (miner, os)) :
    AllWatched ⟨miner, progressAfter s os i⟩ := by
  cases minerMoves_of_step hs with
  | publish _ => exact h
  | dropSender => exact h
  | pop _ => exact h
  | @readNone w hp hj =>
      exact h.setWorker (by rw [hp]; exact nofun) (by simp) (by simp)
        (fun v hv => Function.update_of_ne hv _ _) nofun
  | @readNewVm w job cache cos hp hj hc =>
      obtain ⟨rfl, rfl⟩ := cacheStep_call hc
      refine h.setWorker_setCaller (fun v hv => Function.update_of_ne hv _ _) ?_
      exact { vm := by simpa using (h w).vm, blocked := nofun
              idle := fun hne => absurd rfl hne, offering := nofun }
  | @readSameVm w job hp hj hv =>
      exact h.setWorker (by rw [hp]; exact nofun) (by simp) (by simp)
        (fun v hv => Function.update_of_ne hv _ _) nofun
  | @changed w hp hv =>
      exact h.setWorker (by rw [hp]; exact nofun) rfl rfl
        (fun v hv => Function.update_of_ne hv _ _) nofun
  | @exit w hp hclosed =>
      exact h.setWorker (by rw [hp]; exact nofun) rfl rfl
        (fun v hv => Function.update_of_ne hv _ _) nofun
  | cache hi hc => exact allWatched_cache h hok hi hc
  | @newVm w available job req dataset vm cache cos hp hj hr hc hvm =>
      obtain ⟨rfl, rfl⟩ := cacheStep_ret hr hc
      refine h.setWorker_setCaller (fun _ _ => rfl) ?_
      exact { vm := fun _ => nofun, blocked := nofun, idle := fun _ => rfl, offering := nofun }
  | @noVm w available job cache cos hp hj hc =>
      cases cacheMoves_of_step hc with
      | ret hr =>
          refine h.setWorker_setCaller (fun _ _ => rfl) ?_
          exact { vm := (h w).vm, blocked := nofun, idle := fun _ => rfl, offering := nofun }
  | @batch w job vm batch hp hj hv hb =>
      refine h.setWorker (by rw [hp]; exact nofun) rfl rfl
        (fun v hv => Function.update_of_ne hv _ _) fun _ _ => ?_
      have hworked := mineOneBatch_worked (config.hash vm.dataset) job config.threadCount
        (s.miner.workers w).nonce (hsound w).job.length
      simp only [progressAfter, Function.update_self, List.any_cons, MinerObs.worked, hb, hworked,
        Bool.true_or, Bool.or_true]
  | @noBatch w hp =>
      exact h.setWorker (by rw [hp]; exact nofun) rfl rfl
        (fun v hv => Function.update_of_ne hv _ _) nofun
  | @offered w hp =>
      exact h.setWorker (by rw [hp]; exact nofun) rfl rfl (fun _ _ => rfl) nofun
  | @offer w found rest sent hp hsent =>
      have hmoved : AllWatched
          ⟨s.miner.setWorker w { s.miner.workers w with phase := .offering rest }, s.progressed⟩ :=
        h.setWorker (by rw [hp]; exact nofun) rfl rfl (fun _ _ => rfl)
          fun _ _ => (h w).offering _ hp
      -- the queue takes the share or not; the worker goes on either way
      subst hsent
      intro v
      simp only [MinerState.trySend_workers, MinerState.trySend_cache]
      exact hmoved v

/-! ## Iterations that end -/

/-- A worker that comes back from the cache without a VM has no dataset, or could not make
the VM. -/
theorem createVm_of_head {w : Nat} {available : Bool}
    (hs : minerStep config s.miner (.createVm w available) = some (miner, os))
    (hp : (miner.workers w).phase = .head) :
    ∃ req dataset, s.miner.cache.callers w = .returned req dataset ∧
      ∀ d, dataset = some d → (Vm.new d available).isNone = true := by
  simp only [minerStep] at hs
  split at hs
  · next job req dataset cache cos hphase hj hr hc =>
      refine ⟨req, dataset, hr, ?_⟩
      rintro d rfl
      split at hs
      · cases hs
        simp at hp
      · next hnone => exact Option.isNone_iff_eq_none.mpr hnone
  · cases hs

/-- A worker that mines has a job and a VM. -/
theorem mine_of_mining {w : Nat} {tr : List MinerObs} (h : AllWatched s)
    (hsound : AllSound s.miner tr)
    (hs : minerStep config s.miner (.mine w) = some (miner, os)) :
    (miner.workers w).phase ≠ .head := by
  simp only [minerStep] at hs
  split at hs
  · next job vm hp hj hv =>
      cases hs
      simp
  · next hp hnone =>
      obtain ⟨job, hj, hneeds⟩ := (hsound w).mining hp
      have hseed : (s.miner.workers w).currentSeed ≠ none := by
        intro hnoSeed
        simp [Worker.needsVm, hnoSeed] at hneeds
      obtain ⟨vm, hv⟩ := Option.ne_none_iff_exists'.mp ((h w).vm hseed)
      exact (hnone job vm hj hv).elim
  · cases hs

/-- The iteration that a step ends has made progress, unless the step gives up. -/
theorem progressed_of_ended {tr : List MinerObs} {w : Nat} (h : AllWatched s)
    (hsound : AllSound s.miner tr) (hok : s.givesUp i = false)
    (hs : minerStep config s.miner i = some (miner, os)) (hi : i.worker = some w)
    (hbefore : (s.miner.workers w).phase ≠ .head) (hafter : (miner.workers w).phase = .head) :
    progressAfter s os i w = true := by
  cases i with
  | publish job => cases hi
  | dropSender => cases hi
  | cache input => cases hi
  | pop => cases hi
  | read v =>
      cases hi
      cases minerMoves_of_step hs with
      | readNone hp _ => exact absurd hp hbefore
      | readNewVm hp _ _ => exact absurd hp hbefore
      | readSameVm hp _ _ => exact absurd hp hbefore
  | changed v =>
      cases hi
      exact Function.update_self ..
  | createVm v available =>
      cases hi
      obtain ⟨req, dataset, hr, hnone⟩ := createVm_of_head hs hafter
      cases dataset with
      | none => exact (h w).blocked (by rw [hr]; rfl)
      | some d =>
          simp only [Watched.givesUp, hr, hnone d rfl, Bool.true_and, Bool.not_eq_false'] at hok
          exact hok
  | mine v =>
      cases hi
      exact absurd hafter (mine_of_mining h hsound hs)
  | offer v =>
      cases hi
      cases minerMoves_of_step hs with
      | offered hp => exact (h w).offering _ hp
      | offer hp _ => exact (h w).offering _ hp

end

/-- In a run without a step that gives up, every iteration that ended with a job has hashed,
slept or waited. -/
theorem iterations_progress (config : MinerConfig) {is : List MinerInput} {s : Watched}
    {ended : List Iteration}
    (h : Run (watchStep config) (fun s i => s.givesUp i = false) (.start config.threadCount) is
      s ended) :
    ∀ iteration ∈ ended, iteration.progressed = true := by
  have hinv := h.invariant (P := fun s ended => (∃ tr, AllSound s.miner tr) ∧ AllWatched s ∧
      ∀ iteration ∈ ended, iteration.progressed = true)
    ⟨⟨[], allSound_start _⟩, allWatched_start _, nofun⟩ ?_
  · exact hinv.2.2
  · rintro s ⟨miner, progressed⟩ past new i ⟨⟨tr, hsound⟩, hwatched, hpast⟩ hok hs
    obtain ⟨os, hminer, rfl, rfl⟩ := watchStep_eq_some hs
    refine ⟨⟨_, allSound_step hsound hminer⟩, allWatched_step hwatched hsound hok hminer, ?_⟩
    rw [List.forall_mem_append]
    refine ⟨hpast, fun iteration hmem => ?_⟩
    obtain ⟨hi, hbefore, hafter, hprogressed⟩ := mem_iterationsOf hmem
    rw [hprogressed]
    exact progressed_of_ended hwatched hsound hok hminer hi hbefore hafter

/-- The dataset is built while the worker waits, and the batch hashes. -/
def builtRun : List MinerInput :=
  [.publish zeroBlobJob, .read 0, .cache (.lock 0), .cache (.built 0 true), .cache (.store 0),
    .createVm 0 true, .mine 0, .offer 0]

theorem iterations_progress_built :
    ∃ s ended, Run (watchStep worstConfig) (fun s i => s.givesUp i = false) (.start 1) builtRun
        s ended ∧
      ended.length = 1 ∧ ∀ iteration ∈ ended, iteration.progressed = true := by
  obtain ⟨s, ended, hrun, hlen⟩ := anyRun_of_exec_test (p := fun _ ended => ended.length == 1)
    (show (exec (guarded (watchStep worstConfig) Watched.givesUp) (.start 1) builtRun).any
      (fun r => r.2.length == 1) = true by decide +kernel)
  exact ⟨s, ended, hrun.of_guarded, beq_iff_eq.mp hlen,
    iterations_progress worstConfig hrun.of_guarded⟩

/-! ## Giving up -/

section

variable {config : MinerConfig} {s s' : Watched} {i : MinerInput} {new : List Iteration}
  {tr : List MinerObs}

/-- The worker that gets no VM is back at the head. -/
def Watched.noVm (s : Watched) (w : Nat) : Watched where
  miner := (s.miner.setWorker w { s.miner.workers w with phase := .head }).setCache
    (s.miner.cache.setCaller w .idle)
  progressed := s.progressed

/-- The iteration of a worker that gets no VM is over, with what it has done until then. -/
theorem watchStep_createVm_none {w : Nat} {available : Bool} {job : Job} {req : Request}
    {dataset : Option Dataset} (hp : (s.miner.workers w).phase = .inCache)
    (hj : (s.miner.workers w).currentJob = some job)
    (hc : s.miner.cache.callers w = .returned req dataset)
    (hvm : (dataset.bind fun d => Vm.new d available) = none) :
    watchStep config s (.createVm w available) = some (s.noVm w, [⟨w, job, s.progressed w⟩]) := by
  have hminer : minerStep config s.miner (.createVm w available)
      = some ((s.noVm w).miner, [.cache (.returned w req dataset)]) := by
    simp [minerStep, cacheStep, hp, hj, hc, hvm, Watched.noVm]
  rw [watchStep_of_miner hminer]
  simp [progressAfter, iterationsOf, MinerInput.worker, endedJob, hp, hj, Watched.noVm]

/-- The call of a worker finds that the build has failed before. -/
theorem watchStep_lock_failed {w : Nat} {req : Request}
    (hc : s.miner.cache.callers w = .locking req)
    (hlook : s.miner.cache.state.look req.cacheKey = .failed) :
    watchStep config s (.cache (.lock w))
      = some (⟨s.miner.setCache (s.miner.cache.setCaller w (.returned req none)), s.progressed⟩,
          []) := by
  have hminer : minerStep config s.miner (.cache (.lock w))
      = some (s.miner.setCache (s.miner.cache.setCaller w (.returned req none)), []) := by
    simp [minerStep, CacheInput.isInternal, cacheStep, hc, hlook]
  rw [watchStep_of_miner hminer]
  simp [progressAfter, iterationsOf, MinerInput.worker, RxDatasetCache.blocks, hc, hlook]

/-- A worker whose call has not returned to it is in its iteration. -/
theorem inCache_of_caller {w : Nat} (h : AllWatched s) (hsound : AllSound s.miner tr)
    (hc : s.miner.cache.callers w ≠ .idle) :
    (s.miner.workers w).phase = .inCache ∧
      ∃ job, (s.miner.workers w).currentJob = some job := by
  have hp : (s.miner.workers w).phase = .inCache := by
    by_contra hp
    exact hc ((h w).idle hp)
  obtain ⟨job, hj, -⟩ := (hsound w).inCache hp
  exact ⟨hp, job, hj⟩

/-- The steps that the condition excludes are those of iterations for nothing: the worker's
iteration is over now, or as soon as its call returns. -/
theorem exists_idle_of_givesUp (h : AllWatched s) (hsound : AllSound s.miner tr)
    (hup : s.givesUp i = true) (hs : watchStep config s i = some (s', new)) :
    ∃ js t rest, exec (watchStep config) s' js = some (t, rest) ∧
      ∃ iteration ∈ new ++ rest, iteration.progressed = false := by
  unfold Watched.givesUp at hup
  split at hup
  · next w =>
      split at hup
      · next req hc =>
          split at hup
          · next hlook =>
              rw [Bool.not_eq_true'] at hup
              obtain ⟨hp, job, hj⟩ := inCache_of_caller h hsound (ne_of_eq_of_ne hc (by simp))
              rw [watchStep_lock_failed hc hlook] at hs
              cases hs
              -- the call returns, and the iteration is over
              let t : Watched := ⟨s.miner.setCache (s.miner.cache.setCaller w
                (.returned req none)), s.progressed⟩
              have hnone : watchStep config t (.createVm w true)
                  = some (t.noVm w, [⟨w, job, s.progressed w⟩]) :=
                watchStep_createVm_none hp hj (RxDatasetCache.setCaller_self ..) rfl
              have hexec : exec (watchStep config) t [.createVm w true]
                  = some (t.noVm w, [⟨w, job, s.progressed w⟩]) := by
                rw [exec, hnone]
                rfl
              exact ⟨_, _, _, hexec, _, List.mem_singleton_self _, hup⟩
          · cases hup
      · cases hup
  · next w available =>
      split at hup
      · next req d hc =>
          rw [Bool.and_eq_true, Option.isNone_iff_eq_none, Bool.not_eq_true'] at hup
          obtain ⟨hp, job, hj⟩ := inCache_of_caller h hsound (ne_of_eq_of_ne hc (by simp))
          rw [watchStep_createVm_none hp hj hc hup.1] at hs
          cases hs
          exact ⟨[], _, [], rfl, _, List.mem_singleton_self _, hup.2⟩
      · cases hup
  · cases hup

end

/-! ## Spinning -/

/-- A worker at the head of its loop with the latest job, whose dataset could not be built. -/
structure Stuck (s : Watched) (w : Nat) (job : Job) : Prop where
  head : (s.miner.workers w).phase = .head
  current : (s.miner.workers w).currentJob = some job
  latest : s.miner.watch.value.map Job.jobId = some job.jobId
  seen : (s.miner.workers w).seen = s.miner.watch.version
  needsVm : (s.miner.workers w).needsVm job = true
  idle : s.miner.cache.callers w = .idle
  failed : s.miner.cache.state = .failed (Request.ofJob job).cacheKey

/-- The steps of one iteration of a stuck worker. -/
def spin (w : Nat) : List MinerInput := [.read w, .cache (.lock w), .createVm w true]

theorem Worker.adopt_of_same {worker : Worker} {job : Job} {w : Nat} {watch : Watch}
    (hjob : worker.currentJob = some job) (hlatest : watch.value.map Job.jobId = some job.jobId)
    (hseen : worker.seen = watch.version) : worker.adopt w watch = worker := by
  unfold Worker.adopt
  rw [← hseen, if_neg]
  simp [hlatest, hjob]

section

variable {config : MinerConfig} {s : Watched} {w : Nat} {job : Job}

/-- The worker in its iteration, with its call in the cache. -/
def Watched.inCache (s : Watched) (w : Nat) (caller : Caller) : Watched where
  miner := (s.miner.setWorker w { s.miner.workers w with phase := .inCache }).setCache
    (s.miner.cache.setCaller w caller)
  progressed := Function.update s.progressed w false

theorem watchStep_read_stuck (h : Stuck s w job) :
    watchStep config s (.read w) = some (s.inCache w (.locking (.ofJob job)), []) := by
  have hadopt := Worker.adopt_of_same (w := w) h.current h.latest h.seen
  have hminer : minerStep config s.miner (.read w)
      = some ((s.inCache w (.locking (.ofJob job))).miner, [.read w s.miner.watch.value]) := by
    simp [minerStep, cacheStep, h.head, hadopt, h.current, h.needsVm, h.idle, Watched.inCache]
  rw [watchStep_of_miner hminer]
  simp [progressAfter, iterationsOf, MinerInput.worker, endedJob, h.head, Watched.inCache]

theorem watchStep_lock_stuck (h : Stuck s w job) :
    watchStep config (s.inCache w (.locking (.ofJob job))) (.cache (.lock w))
      = some (s.inCache w (.returned (.ofJob job) none), []) := by
  have hlook : s.miner.cache.state.look (Request.ofJob job).cacheKey = .failed := by
    rw [h.failed]
    exact if_pos rfl
  have hminer : minerStep config (s.inCache w (.locking (.ofJob job))).miner (.cache (.lock w))
      = some ((s.inCache w (.returned (.ofJob job) none)).miner, []) := by
    simp [minerStep, CacheInput.isInternal, cacheStep, hlook, Watched.inCache,
      RxDatasetCache.setCaller, MinerState.setCache]
  rw [watchStep_of_miner hminer]
  simp [progressAfter, iterationsOf, MinerInput.worker, RxDatasetCache.blocks, hlook,
    Watched.inCache]

theorem watchStep_createVm_stuck (h : Stuck s w job) :
    watchStep config (s.inCache w (.returned (.ofJob job) none)) (.createVm w true)
      = some ({ s with progressed := Function.update s.progressed w false },
          [⟨w, job, false⟩]) := by
  have hminer : minerStep config (s.inCache w (.returned (.ofJob job) none)).miner
      (.createVm w true) = some (s.miner, [.cache (.returned w (.ofJob job) none)]) := by
    have hworker : ({ s.miner.workers w with
        phase := .head, currentJob := some job } : Worker) = s.miner.workers w := by
      rw [← h.head, ← h.current]
    have hworkers : Function.update s.miner.workers w
        { s.miner.workers w with phase := .head, currentJob := some job } = s.miner.workers := by
      rw [hworker, Function.update_eq_self]
    have hcallers : Function.update s.miner.cache.callers w .idle = s.miner.cache.callers := by
      rw [← h.idle, Function.update_eq_self]
    simp [minerStep, cacheStep, Watched.inCache, h.current, MinerState.setWorker,
      MinerState.setCache, RxDatasetCache.setCaller, hworkers, hcallers]
  rw [watchStep_of_miner hminer]
  simp [progressAfter, iterationsOf, MinerInput.worker, endedJob, h.head, h.current,
    Watched.inCache]

/-- The iteration of a stuck worker leads back to where it began. -/
theorem exec_spin (h : Stuck s w job) :
    exec (watchStep config) s (spin w)
      = some ({ s with progressed := Function.update s.progressed w false },
          [⟨w, job, false⟩]) := by
  simp only [exec, spin, watchStep_read_stuck h, watchStep_lock_stuck h,
    watchStep_createVm_stuck h, List.nil_append, List.append_nil]

/-- A stuck worker that has not made progress spins as often as it likes. -/
theorem run_spin (h : Stuck s w job) (hidle : s.progressed w = false) (n : Nat) :
    Run (watchStep config) (fun _ _ => True) s (List.replicate n (spin w)).flatten s
      (List.replicate n ⟨w, job, false⟩) := by
  have hback : exec (watchStep config) s (spin w) = some (s, [⟨w, job, false⟩]) := by
    rw [exec_spin h, ← hidle, Function.update_eq_self]
  induction n with
  | zero => exact Run.nil
  | succ n ih =>
      rw [List.replicate_succ, List.flatten_cons, List.replicate_succ, ← List.singleton_append]
      exact (run_of_exec hback fun _ _ _ => trivial).append ih

end

/-- The build fails, and the worker looks again. -/
def failedRun : List MinerInput :=
  [.publish zeroBlobJob, .read 0, .cache (.lock 0), .cache (.built 0 false), .cache (.store 0),
    .createVm 0 true] ++ spin 0

/-- The worker is stuck, and its last iteration was for nothing. -/
def spinsTest (s : Watched) (w : Nat) (job : Job) (ended : List Iteration) : Bool :=
  (s.miner.workers w).phase == .head && (s.miner.workers w).currentJob == some job &&
    s.miner.watch.value.map Job.jobId == some job.jobId &&
    (s.miner.workers w).seen == s.miner.watch.version && (s.miner.workers w).needsVm job &&
    s.miner.cache.callers w == .idle &&
    (match s.miner.cache.state with
      | .failed key => key == (Request.ofJob job).cacheKey
      | _ => false) && s.progressed w == false && ended.contains ⟨w, job, false⟩

theorem stuck_of_spinsTest {s : Watched} {w : Nat} {job : Job} {ended : List Iteration}
    (h : spinsTest s w job ended = true) :
    Stuck s w job ∧ s.progressed w = false ∧ ⟨w, job, false⟩ ∈ ended := by
  simp only [spinsTest, Bool.and_eq_true, beq_iff_eq, List.contains_iff_mem] at h
  obtain ⟨⟨⟨⟨⟨⟨⟨⟨hhead, hcurrent⟩, hlatest⟩, hseen⟩, hneeds⟩, hidle⟩, hfailed⟩, hprogressed⟩,
    hended⟩ := h
  refine ⟨⟨hhead, hcurrent, hlatest, hseen, hneeds, hidle, ?_⟩, hprogressed, hended⟩
  split at hfailed
  · next key hstate => rw [hstate, beq_iff_eq.mp hfailed]
  · cases hfailed

/-- The build of a dataset fails once, and the worker spins from then on. -/
theorem failed_dataset_spins :
    ∃ is s ended, Run (watchStep worstConfig) (fun _ _ => True) (.start 1) is s ended ∧
      (∃ iteration ∈ ended, iteration.progressed = false) ∧
      ∀ n, Run (watchStep worstConfig) (fun _ _ => True) s (List.replicate n (spin 0)).flatten s
        (List.replicate n ⟨0, zeroBlobJob, false⟩) := by
  obtain ⟨s, ended, hrun, htest⟩ := anyRun_of_exec_test
    (p := fun s ended => spinsTest s 0 zeroBlobJob ended)
    (show (exec (watchStep worstConfig) (.start 1) failedRun).any
      (fun r => spinsTest r.1 0 zeroBlobJob r.2) = true by decide +kernel)
  obtain ⟨hstuck, hprogressed, hended⟩ := stuck_of_spinsTest htest
  exact ⟨failedRun, s, ended, hrun, ⟨_, hended, rfl⟩, run_spin hstuck hprogressed⟩

end LiteXmr
