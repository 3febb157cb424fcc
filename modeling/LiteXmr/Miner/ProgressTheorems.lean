/-
LiteXmr.Miner.ProgressTheorems — no mining thread is stuck.

A thread sleeps in two places: on the job channel, and on the condvar of the
dataset cache. `latest_job_can_be_read` says that it is never left there once
there is a job: from every state that is reached, by steps of the threads
alone and whether their builds succeed or fail, the worker comes back to the
channel and reads the latest job. No thread has ended by then.

`WorkerSettled` is the invariant. A worker is known to the cache only while it
is in `get_or_build`, and one that sleeps on the channel with nothing new to
see has seen that there is no job. The rest is a walk through the phases, one
lemma for each (`leads_*`); a worker that waits for a build lets the builder
finish first (`finish_build`).

`staleness_bounded` is about the channel as well: a worker hashes no more than
one batch between two looks at it.
-/
import LiteXmr.Miner.DatasetBuildTheorems
import LiteXmr.Miner.WorkerTheorems

namespace LiteXmr

open Lts

/-! ## Sleeping workers -/

/-- How a worker stands to the channel and to the cache. -/
structure WorkerSettled (threadCount : UInt32) (w : Nat) (watch : Watch) (worker : Worker)
    (caller : Caller) : Prop where
  idle : worker.phase ≠ .inCache → caller = .idle
  seen : worker.seen ≤ watch.version
  asleep : worker.phase = .waitChanged → worker.seen = watch.version → watch.value = none
  exited : w < threadCount.toNat → worker.phase = .exited →
    watch.closed = true ∧ watch.value = none

def AllSettled (threadCount : UInt32) (s : MinerState) : Prop :=
  ∀ w, WorkerSettled threadCount w s.watch (s.workers w) (s.cache.callers w)

section

variable {config : MinerConfig} {T : UInt32} {s s' : MinerState} {i : MinerInput}
  {os tr : List MinerObs} {w : Nat}

/-- A worker without a job has read that there is none. -/
theorem value_of_adopt {worker : Worker} {watch : Watch}
    (h : (worker.adopt w watch).currentJob = none) : watch.value = none := by
  rw [Worker.adopt_currentJob] at h
  split at h
  · next hid =>
      rw [h] at hid
      exact Option.map_eq_none_iff.mp hid
  · exact h

@[simp] theorem Worker.adopt_seen (worker : Worker) (watch : Watch) :
    (worker.adopt w watch).seen = watch.version := by
  simp only [Worker.adopt]
  split
  · split <;> rfl
  · rfl

/-- What waking up on the channel comes to. -/
theorem changed_of_step (h : minerStep config s (.changed w) = some (s', os)) :
    (s.workers w).phase = .waitChanged ∧ os = [] ∧
      ((s.watch.version ≠ (s.workers w).seen ∧ s' = s.setWorker w
          { s.workers w with phase := .head, seen := s.watch.version }) ∨
        (s.watch.version = (s.workers w).seen ∧ s.watch.closed = true ∧
          s' = s.setWorker w { s.workers w with phase := .exited })) := by
  simp only [minerStep] at h
  split at h
  · next hp =>
      split at h
      · next hv =>
          cases h
          exact ⟨hp, rfl, Or.inl ⟨hv, rfl⟩⟩
      · next hv =>
          split at h
          · next hclosed =>
              cases h
              exact ⟨hp, rfl, Or.inr ⟨not_not.mp hv, hclosed, rfl⟩⟩
          · cases h
  · cases h

/-- A step of worker `w` alone. -/
theorem AllSettled.of_worker (h : AllSettled T s) (w : Nat) (hwatch : s'.watch = s.watch)
    (hworkers : ∀ v, v ≠ w → s'.workers v = s.workers v)
    (hcallers : ∀ v, v ≠ w → s'.cache.callers v = s.cache.callers v)
    (hw : WorkerSettled T w s.watch (s'.workers w) (s'.cache.callers w)) :
    AllSettled T s' := by
  intro v
  rw [hwatch]
  by_cases hv : v = w
  · subst hv
    exact hw
  · rw [hworkers v hv, hcallers v hv]
    exact h v

theorem AllSettled.setWorker (h : AllSettled T s) {worker : Worker}
    (hp : (s.workers w).phase ≠ .inCache) (hseen : worker.seen ≤ s.watch.version)
    (hasleep : worker.phase = .waitChanged → worker.seen = s.watch.version →
      s.watch.value = none)
    (hexited : worker.phase = .exited → s.watch.closed = true ∧ s.watch.value = none) :
    AllSettled T (s.setWorker w worker) := by
  refine h.of_worker w rfl (fun v hv => by simp [hv]) (fun _ _ => rfl) ?_
  rw [MinerState.setWorker_self]
  exact { idle := fun _ => (h w).idle hp, seen := hseen, asleep := hasleep
          exited := fun _ => hexited }

/-- The call of a worker in the cache moves on. -/
theorem AllSettled.of_caller (h : AllSettled T s) {cache : RxDatasetCache} {caller : Caller}
    (hidle : s.cache.callers w ≠ .idle)
    (hcallers : cache.callers = Function.update s.cache.callers w caller) :
    AllSettled T (s.setCache cache) := by
  refine h.of_worker w rfl (fun _ _ => rfl) (fun v hv => ?_) ?_
  · rw [MinerState.setCache_cache, hcallers, Function.update_of_ne hv]
  · exact { h w with idle := fun hp => absurd ((h w).idle hp) hidle }

theorem allSettled_cache (h : AllSettled T s) {input : CacheInput} {cache : RxDatasetCache}
    {cos : List CacheObs} (hi : input.isInternal = true)
    (hc : cacheStep s.cache input = some (cache, cos)) : AllSettled T (s.setCache cache) := by
  have hne : ∀ {v : Nat} {caller : Caller}, s.cache.callers v = caller → caller ≠ .idle →
      s.cache.callers v ≠ .idle := by
    rintro v _ rfl hcaller
    exact hcaller
  cases cacheMoves_of_step hc with
  | call _ => cases hi
  | ret _ => cases hi
  | hit hw _ => exact h.of_caller (hne hw (by simp)) rfl
  | miss hw _ => exact h.of_caller (hne hw (by simp)) rfl
  | wait hw _ => exact h.of_caller (hne hw (by simp)) rfl
  | claim hw _ => exact h.of_caller (hne hw (by simp)) rfl
  | wake hw => exact h.of_caller (hne hw (by simp)) rfl
  | built hw _ => exact h.of_caller (hne hw (by simp)) rfl
  | @store w req dataset hw =>
      intro v
      refine { h v with idle := fun hp => ?_ }
      have hidle := (h v).idle hp
      have hv : v ≠ w := by
        rintro rfl
        rw [hw] at hidle
        cases hidle
      simp [hv, hidle, Caller.notify]

/-- A worker calls the cache, or its call comes back. -/
theorem AllSettled.setWorker_setCaller (h : AllSettled T s) {worker : Worker} {caller : Caller}
    (hw : WorkerSettled T w s.watch worker caller) :
    AllSettled T ((s.setWorker w worker).setCache (s.cache.setCaller w caller)) := by
  refine h.of_worker w rfl (fun v hv => by simp [hv]) (fun v hv => by simp [hv]) ?_
  rw [MinerState.setCache_workers, MinerState.setWorker_self, MinerState.setCache_cache,
    RxDatasetCache.setCaller_self]
  exact hw

theorem allSettled_step (h : AllSettled T s) (hs : minerStep config s i = some (s', os)) :
    AllSettled T s' := by
  cases minerMoves_of_step hs with
  | @publish job hopen =>
      intro w
      have hseen : (s.workers w).seen < (s.watch.send job).version :=
        Nat.lt_succ_of_le (h w).seen
      exact
        { idle := (h w).idle
          seen := Nat.le_of_lt hseen
          asleep := fun _ heq => absurd heq (Nat.ne_of_lt hseen)
          exited := fun hw hp => by
            rw [((h w).exited hw hp).1] at hopen
            cases hopen }
  | dropSender =>
      exact fun w => { h w with exited := fun hw hp => ⟨rfl, ((h w).exited hw hp).2⟩ }
  | readNone hp hj =>
      exact h.setWorker (by simp [hp]) (by simp) (fun _ _ => value_of_adopt hj) (by simp)
  | readNewVm hp hj hc =>
      obtain ⟨rfl, rfl⟩ := cacheStep_call hc
      exact h.setWorker_setCaller
        { idle := by simp, seen := by simp, asleep := by simp, exited := by simp }
  | readSameVm hp hj hv => exact h.setWorker (by simp [hp]) (by simp) (by simp) (by simp)
  | @changed w hp hv => exact h.setWorker (by simp [hp]) (by simp) (by simp) (by simp)
  | @exit w hp hclosed =>
      obtain ⟨-, -, ⟨hv, heq⟩ | ⟨hv, -, -⟩⟩ := changed_of_step hs
      · have hphase := congrArg (fun t : MinerState => (t.workers w).phase) heq
        simp at hphase
      · exact h.setWorker (by simp [hp]) (h w).seen (by simp)
          fun _ => ⟨hclosed, (h w).asleep hp hv.symm⟩
  | cache hi hc => exact allSettled_cache h hi hc
  | @newVm w _ _ _ _ _ _ _ hp hj hr hc _ =>
      obtain ⟨rfl, rfl⟩ := cacheStep_ret hr hc
      exact h.setWorker_setCaller
        { idle := by simp, seen := (h w).seen, asleep := by simp, exited := by simp }
  | @noVm w _ _ _ _ hp hj hc =>
      cases cacheMoves_of_step hc with
      | ret hr =>
          exact h.setWorker_setCaller
            { idle := by simp, seen := (h w).seen, asleep := by simp, exited := by simp }
  | @batch w _ _ _ hp _ _ _ => exact h.setWorker (by simp [hp]) (h w).seen (by simp) (by simp)
  | @noBatch w hp => exact h.setWorker (by simp [hp]) (h w).seen (by simp) (by simp)
  | @offered w hp => exact h.setWorker (by simp [hp]) (h w).seen (by simp) (by simp)
  | @offer w found rest sent hp hsent =>
      have hset : AllSettled T (s.setWorker w { s.workers w with phase := .offering rest }) :=
        h.setWorker (by simp [hp]) (h w).seen (by simp) (by simp)
      subst hsent
      intro v
      simpa using hset v
  | pop _ => exact h

theorem allSettled_start (T : UInt32) : AllSettled T (.start T) := by
  intro w
  by_cases hw : w < T.toNat
  · exact { idle := fun _ => rfl, seen := by simp [MinerState.start, hw, Worker.new]
            asleep := by simp [MinerState.start, hw, Worker.new]
            exited := by simp [MinerState.start, hw, Worker.new] }
  · exact { idle := fun _ => rfl, seen := by simp [MinerState.start, hw, Worker.new]
            asleep := by simp [MinerState.start, hw]
            exited := fun h => absurd h hw }

/-! ## What holds in every state that is reached -/

/-- The invariants of the threads. -/
structure Good (T : UInt32) (s : MinerState) : Prop where
  sound : ∃ tr, AllSound s tr
  settled : AllSettled T s
  awaited : Awaited s.cache

theorem awaited_of_minerStep (h : Awaited s.cache)
    (hs : minerStep config s i = some (s', os)) : Awaited s'.cache := by
  cases minerMoves_of_step hs with
  | readNewVm _ _ hc => exact awaited_step h hc
  | cache _ hc => exact awaited_step h hc
  | newVm _ _ _ hc _ => exact awaited_step h hc
  | noVm _ _ hc => exact awaited_step h hc
  | offer _ hsent =>
      subst hsent
      simpa using h
  | _ => exact h

theorem good_step (h : Good T s) (hs : minerStep config s i = some (s', os)) : Good T s' where
  sound := by
    obtain ⟨tr, hsound⟩ := h.sound
    exact ⟨_, allSound_step hsound hs⟩
  settled := allSettled_step h.settled hs
  awaited := awaited_of_minerStep h.awaited hs

theorem good_of_run {is : List MinerInput} {ok : MinerState → MinerInput → Prop}
    (h : Run (minerStep config) ok (.start config.threadCount) is s tr) :
    Good config.threadCount s :=
  h.stateInvariant ⟨⟨[], allSound_start _⟩, allSettled_start _, awaited_new⟩
    fun hgood _ hs => good_step hgood hs

/-! ## Steps of the threads -/

/-- A step the threads take by themselves, no job being published and no share
taken from them; the memory for a dataset or a VM is there, or it is not. -/
def MinerInput.isOwn (available : Bool) : MinerInput → Bool
  | .publish _ | .dropSender | .pop | .cache (.wake _) => false
  | .cache (.built _ a) | .createVm _ a => a == available
  | _ => true

theorem watch_of_isOwn {available : Bool} (hi : i.isOwn available = true)
    (hs : minerStep config s i = some (s', os)) : s'.watch = s.watch := by
  cases minerMoves_of_step hs with
  | publish _ => cases hi
  | dropSender => cases hi
  | offer _ hsent =>
      subst hsent
      simp
  | _ => rfl

theorem cacheStep_built {cache : RxDatasetCache} {req : Request} (available : Bool)
    (h : cache.callers w = .building req) :
    cacheStep cache (.built w available) = some
      (cache.setCaller w
          (.storing req (Dataset.newForAlgo req.algo req.seedBytes available)),
        [.built w req (Dataset.newForAlgo req.algo req.seedBytes available)]) := by
  simp [cacheStep, h]

theorem cacheStep_store {cache : RxDatasetCache} {req : Request} {dataset : Option Dataset}
    (h : cache.callers w = .storing req dataset) :
    cacheStep cache (.store w) = some
      ({ state := .ofBuilt req.cacheKey dataset
         callers := Function.update (fun v => (cache.callers v).notify) w
           (.returned req dataset) }, []) := by
  simp [cacheStep, h]

theorem minerStep_cache {input : CacheInput} {cache : RxDatasetCache} {cos : List CacheObs}
    (hi : input.isInternal = true) (hc : cacheStep s.cache input = some (cache, cos)) :
    minerStep config s (.cache input) = some (s.setCache cache, cos.map .cache) := by
  simp [minerStep, hi, hc]

/-- A state on the way, with the job channel as it was. -/
structure Stage (T : UInt32) (watch : Watch) (p : MinerState → Prop) (s : MinerState) :
    Prop where
  good : Good T s
  watch : s.watch = watch
  here : p s

end

section Walk

variable {config : MinerConfig} {T : UInt32} {watch : Watch} {available : Bool}
  {p q r : MinerState → Prop} {w v : Nat}

/-- By steps of the threads, `q` can be reached from `p`. -/
abbrev Walk (config : MinerConfig) (T : UInt32) (watch : Watch) (available : Bool)
    (p q : MinerState → Prop) : Prop :=
  Leads (minerStep config) (fun _ i => i.isOwn available = true) (Stage T watch p)
    (Stage T watch q)

theorem walk_of_step (h : ∀ s, Stage T watch p s → ∃ i s' os, i.isOwn available = true ∧
    minerStep config s i = some (s', os) ∧ q s') : Walk config T watch available p q := by
  intro s hs
  obtain ⟨i, s', os, hi, hstep, hq⟩ := h s hs
  exact ⟨[i], s', os, Run.single hi hstep, good_step hs.good hstep,
    (watch_of_isOwn hi hstep).trans hs.watch, hq⟩

theorem walk_or (hp : Walk config T watch available p r) (hq : Walk config T watch available q r) :
    Walk config T watch available (fun s => p s ∨ q s) r := by
  intro s hs
  rcases hs.here with h | h
  · exact hp s { hs with here := h }
  · exact hq s { hs with here := h }

/-! ### In the cache -/

/-- The worker is in `get_or_build`, at a place as `P` says. -/
def Calling (w : Nat) (P : Caller → Prop) (s : MinerState) : Prop :=
  (s.workers w).phase = .inCache ∧ P (s.cache.callers w)

def Caller.IsLocking (caller : Caller) : Prop := ∃ req, caller = .locking req
def Caller.IsBuilding (caller : Caller) : Prop := ∃ req, caller = .building req
def Caller.IsStoring (caller : Caller) : Prop := ∃ req dataset, caller = .storing req dataset
def Caller.IsReturned (caller : Caller) : Prop := ∃ req dataset, caller = .returned req dataset

theorem walk_storing :
    Walk config T watch available (Calling w Caller.IsStoring) (Calling w Caller.IsReturned) := by
  refine walk_of_step fun s hs => ?_
  obtain ⟨hphase, req, dataset, hcaller⟩ := hs.here
  exact ⟨_, _, _, rfl, minerStep_cache rfl (cacheStep_store hcaller), hphase, req, dataset,
    by simp⟩

theorem walk_building :
    Walk config T watch available (Calling w Caller.IsBuilding) (Calling w Caller.IsReturned) := by
  refine Leads.trans (walk_of_step fun s hs => ?_) walk_storing
  obtain ⟨hphase, req, hcaller⟩ := hs.here
  exact ⟨.cache (.built w available), _, _, beq_self_eq_true available,
    minerStep_cache rfl (cacheStep_built available hcaller), hphase, req, _,
    RxDatasetCache.setCaller_self⟩

/-! ### Another worker's build -/

/-- The place of a worker in the cache, while `v` builds `key`. -/
def Awaits (w v : Nat) (caller : Caller) (key : String) (builder : Caller → Prop)
    (s : MinerState) : Prop :=
  Calling w (· = caller) s ∧ builder (s.cache.callers v) ∧
    ∃ req, (s.cache.callers v).builds = some req ∧ req.cacheKey = key

/-- The build is over: the state says how it ended, and the worker has been
told. -/
def Told (w : Nat) (caller : Caller) (key : String) (s : MinerState) : Prop :=
  Calling w (· = caller.notify) s ∧ ∃ dataset, s.cache.state = .ofBuilt key dataset

theorem walk_storing_other (hv : w ≠ v) (caller : Caller) (key : String) :
    Walk config T watch available (Awaits w v caller key Caller.IsStoring)
      (Told w caller key) := by
  refine walk_of_step fun s hs => ?_
  obtain ⟨⟨hphase, rfl⟩, ⟨req, dataset, hcaller⟩, req', hbuilds, rfl⟩ := hs.here
  obtain rfl : req = req' := by simpa [hcaller, Caller.builds] using hbuilds
  refine ⟨_, _, _, rfl, minerStep_cache rfl (cacheStep_store hcaller), ⟨hphase, ?_⟩, dataset, rfl⟩
  simp [hv]

theorem walk_building_other (hv : w ≠ v) (caller : Caller) (key : String) :
    Walk config T watch available (Awaits w v caller key Caller.IsBuilding)
      (Told w caller key) := by
  refine Leads.trans (walk_of_step fun s hs => ?_) (walk_storing_other hv caller key)
  obtain ⟨⟨hphase, rfl⟩, ⟨req, hcaller⟩, req', hbuilds, rfl⟩ := hs.here
  obtain rfl : req = req' := by simpa [hcaller, Caller.builds] using hbuilds
  refine ⟨.cache (.built v available), _, _, beq_self_eq_true available,
    minerStep_cache rfl (cacheStep_built available hcaller), ⟨hphase, ?_⟩, ?_, req, ?_, rfl⟩
  · simp [hv]
  · exact ⟨req, _, RxDatasetCache.setCaller_self⟩
  · simp [Caller.builds]

/-- A builder finishes, whatever it has got to. -/
theorem walk_finish_build (hv : w ≠ v) (caller : Caller) (key : String) :
    Walk config T watch available (Awaits w v caller key fun _ => True) (Told w caller key) := by
  intro s hs
  obtain ⟨hcalling, -, req, hbuilds, hkey⟩ := hs.here
  cases hcaller : s.cache.callers v with
  | building req' =>
      exact walk_building_other hv caller key s
        { hs with here := ⟨hcalling, ⟨req', hcaller⟩, req, hbuilds, hkey⟩ }
  | storing req' dataset =>
      exact walk_storing_other hv caller key s
        { hs with here := ⟨hcalling, ⟨req', dataset, hcaller⟩, req, hbuilds, hkey⟩ }
  | idle | locking | waiting | returned => simp [hcaller, Caller.builds] at hbuilds

/-! ### Under the lock -/

/-- A worker at the lock that will not have to wait. -/
def LooksFree (w : Nat) (s : MinerState) : Prop :=
  ∃ req, Calling w (· = .locking req) s ∧ s.cache.state.look req.cacheKey ≠ .wait

/-- The call comes back at once, or the worker becomes the builder. -/
theorem walk_looksFree :
    Walk config T watch available (LooksFree w) (Calling w Caller.IsReturned) := by
  have hstep : Walk config T watch available (LooksFree w)
      (fun s => Calling w Caller.IsReturned s ∨ Calling w Caller.IsBuilding s) := by
    refine walk_of_step fun s hs => ?_
    obtain ⟨req, ⟨hphase, hcaller⟩, hlook⟩ := hs.here
    cases hl : s.cache.state.look req.cacheKey with
    | hit dataset =>
        have hlock : cacheStep s.cache (.lock w)
            = some (s.cache.setCaller w (.returned req (some dataset)), []) := by
          simp only [cacheStep, hcaller, hl]
        exact ⟨_, _, _, rfl, minerStep_cache rfl hlock, Or.inl ⟨hphase, req, _,
          RxDatasetCache.setCaller_self⟩⟩
    | failed =>
        have hlock : cacheStep s.cache (.lock w)
            = some (s.cache.setCaller w (.returned req none), []) := by
          simp only [cacheStep, hcaller, hl]
        exact ⟨_, _, _, rfl, minerStep_cache rfl hlock, Or.inl ⟨hphase, req, _,
          RxDatasetCache.setCaller_self⟩⟩
    | wait => exact absurd hl hlook
    | claim =>
        have hlock : cacheStep s.cache (.lock w) = some
            ({ s.cache.setCaller w (.building req) with state := .building req.cacheKey },
              [.building w req]) := by
          simp only [cacheStep, hcaller, hl]
        exact ⟨_, _, _, rfl, minerStep_cache rfl hlock, Or.inr ⟨hphase, req,
          RxDatasetCache.setCaller_self⟩⟩
  exact hstep.trans (walk_or (Leads.refl _) walk_building)

theorem look_ofBuilt (key : String) (dataset : Option Dataset) :
    (DatasetState.ofBuilt key dataset).look key ≠ .wait := by
  cases dataset <;> simp [DatasetState.ofBuilt, DatasetState.look]

theorem eq_building_of_look {state : DatasetState} {key : String} (h : state.look key = .wait) :
    state = .building key := by
  unfold DatasetState.look at h
  split at h
  · split at h <;> cases h
  · split at h <;> cases h
  · split at h
    · next hkey => rw [hkey]
    · cases h
  · cases h

/-- A worker that is about to look gets through, after the builder of its key if
there is one. -/
theorem walk_locking :
    Walk config T watch available (Calling w Caller.IsLocking) (Calling w Caller.IsReturned) := by
  refine Leads.trans (Q := Stage T watch (LooksFree w)) (fun s hs => ?_) walk_looksFree
  obtain ⟨hphase, req, hcaller⟩ := hs.here
  by_cases hlook : s.cache.state.look req.cacheKey = .wait
  · obtain ⟨v, req', hbuilds, hkey⟩ := hs.good.awaited.marked _ (eq_building_of_look hlook)
    have hv : w ≠ v := by
      rintro rfl
      rw [hcaller] at hbuilds
      cases hbuilds
    obtain ⟨is, s', tr, hrun, hs'⟩ := walk_finish_build hv (.locking req) req.cacheKey s
      { hs with here := ⟨⟨hphase, hcaller⟩, trivial, req', hbuilds, hkey⟩ }
    obtain ⟨hcalling, dataset, hstate⟩ := hs'.here
    exact ⟨is, s', tr, hrun, { hs' with
      here := ⟨req, hcalling, by rw [hstate]; exact look_ofBuilt _ _⟩ }⟩
  · exact ⟨[], s, [], Run.nil, { hs with here := ⟨req, ⟨hphase, hcaller⟩, hlook⟩ }⟩

/-- A worker that sleeps is woken by the builder it waits for. -/
theorem walk_waiting :
    Walk config T watch available (Calling w fun caller => ∃ req, caller = .waiting req)
      (Calling w Caller.IsLocking) := by
  intro s hs
  obtain ⟨hphase, req, hcaller⟩ := hs.here
  obtain ⟨v, req', hbuilds, hkey⟩ := hs.good.awaited.waiting w req hcaller
  have hv : w ≠ v := by
    rintro rfl
    rw [hcaller] at hbuilds
    cases hbuilds
  obtain ⟨is, s', tr, hrun, hs'⟩ := walk_finish_build hv (.waiting req) req.cacheKey s
    { hs with here := ⟨⟨hphase, hcaller⟩, trivial, req', hbuilds, hkey⟩ }
  obtain ⟨⟨hphase', hcaller'⟩, -⟩ := hs'.here
  exact ⟨is, s', tr, hrun, { hs' with here := ⟨hphase', req, hcaller'⟩ }⟩

/-- Every call of the cache comes back. -/
theorem walk_call :
    Walk config T watch available (fun s => (s.workers w).phase = .inCache)
      (Calling w Caller.IsReturned) := by
  intro s hs
  obtain ⟨tr, hsound⟩ := hs.good.sound
  obtain ⟨job, -, hrequest⟩ := (hsound w).inCache hs.here
  cases hcaller : s.cache.callers w with
  | idle => simp [hcaller, Caller.request] at hrequest
  | locking req => exact walk_locking s { hs with here := ⟨hs.here, req, hcaller⟩ }
  | waiting req =>
      exact walk_waiting.trans walk_locking s { hs with here := ⟨hs.here, req, hcaller⟩ }
  | building req => exact walk_building s { hs with here := ⟨hs.here, req, hcaller⟩ }
  | storing req dataset =>
      exact walk_storing s { hs with here := ⟨hs.here, req, dataset, hcaller⟩ }
  | returned req dataset =>
      exact ⟨[], s, [], Run.nil, { hs with here := ⟨hs.here, req, dataset, hcaller⟩ }⟩

/-! ### Back to the head of the loop -/

def AtHead (w : Nat) (s : MinerState) : Prop := (s.workers w).phase = .head

/-- After the call the worker has a VM to mine with, or starts over. -/
theorem walk_createVm :
    Walk config T watch available (Calling w Caller.IsReturned)
      (fun s => (s.workers w).phase = .mining ∨ AtHead w s) := by
  refine walk_of_step fun s hs => ?_
  obtain ⟨hphase, req, dataset, hcaller⟩ := hs.here
  obtain ⟨tr, hsound⟩ := hs.good.sound
  obtain ⟨job, hjob, -⟩ := (hsound w).inCache hphase
  have hret : cacheStep s.cache (.ret w)
      = some (s.cache.setCaller w .idle, [.returned w req dataset]) := by
    simp [cacheStep, hcaller]
  cases hvm : dataset.bind fun d => Vm.new d available with
  | none =>
      exact ⟨.createVm w available, _, _, beq_self_eq_true available,
        (by simp only [minerStep, hphase, hjob, hcaller, hret, hvm]; rfl),
        Or.inr (by simp [AtHead])⟩
  | some vm =>
      exact ⟨.createVm w available, _, _, beq_self_eq_true available,
        (by simp only [minerStep, hphase, hjob, hcaller, hret, hvm]; rfl), Or.inl (by simp)⟩

theorem walk_offering (n : Nat) :
    Walk config T watch available
      (fun s => ∃ found, (s.workers w).phase = .offering found ∧ found.length = n)
      (AtHead w) := by
  induction n with
  | zero =>
      refine walk_of_step fun s hs => ?_
      obtain ⟨found, hphase, hlen⟩ := hs.here
      rw [List.length_eq_zero_iff.mp hlen] at hphase
      exact ⟨.offer w, _, _, rfl, (by simp only [minerStep, hphase]; rfl), by simp [AtHead]⟩
  | succ n ih =>
      refine Leads.trans (walk_of_step fun s hs => ?_) ih
      obtain ⟨found, hphase, hlen⟩ := hs.here
      obtain ⟨f, rest, rfl⟩ := List.exists_cons_of_length_eq_add_one hlen
      exact ⟨.offer w, _, _, rfl, (by simp only [minerStep, hphase]; rfl), rest, by simp,
        by simpa using hlen⟩

theorem walk_mining :
    Walk config T watch available (fun s => (s.workers w).phase = .mining) (AtHead w) := by
  have hbatch : Walk config T watch available (fun s => (s.workers w).phase = .mining)
      (fun s => (∃ found, (s.workers w).phase = .offering found) ∨ AtHead w s) := by
    refine walk_of_step fun s hs => ?_
    have hphase := hs.here
    cases hjob : (s.workers w).currentJob with
    | none =>
        exact ⟨.mine w, _, _, rfl, (by simp only [minerStep, hphase, hjob]; rfl),
          Or.inr (by simp [AtHead])⟩
    | some job =>
        cases hvm : (s.workers w).vm with
        | none =>
            exact ⟨.mine w, _, _, rfl, (by simp only [minerStep, hphase, hjob, hvm]; rfl),
              Or.inr (by simp [AtHead])⟩
        | some vm =>
            exact ⟨.mine w, _, _, rfl, (by simp only [minerStep, hphase, hjob, hvm]; rfl),
              Or.inl ⟨_, by rw [MinerState.setWorker_self]⟩⟩
  refine hbatch.trans (walk_or (fun s hs => ?_) (Leads.refl _))
  obtain ⟨found, hphase⟩ := hs.here
  exact walk_offering found.length s { hs with here := ⟨found, hphase, rfl⟩ }

/-- With a job on the channel, a worker that sleeps there has something to
see. -/
theorem walk_waitChanged (hvalue : watch.value ≠ none) :
    Walk config T watch available (fun s => (s.workers w).phase = .waitChanged) (AtHead w) := by
  refine walk_of_step fun s hs => ?_
  have hphase := hs.here
  have hseen : s.watch.version ≠ (s.workers w).seen := fun heq => by
    have hnone := (hs.good.settled w).asleep hphase heq.symm
    rw [hs.watch] at hnone
    exact hvalue hnone
  exact ⟨.changed w, _, _, rfl, (by simp only [minerStep, hphase, if_pos hseen]; rfl),
    by simp [AtHead]⟩

/-- A worker comes back to the head of its loop from wherever it is. -/
theorem walk_head (hw : w < T.toNat) (hvalue : watch.value ≠ none) :
    Walk config T watch available (fun _ => True) (AtHead w) := by
  intro s hs
  cases hphase : (s.workers w).phase with
  | head => exact ⟨[], s, [], Run.nil, { hs with here := hphase }⟩
  | waitChanged => exact walk_waitChanged hvalue s { hs with here := hphase }
  | inCache =>
      exact (walk_call.trans (walk_createVm.trans (walk_or walk_mining (Leads.refl _)))) s
        { hs with here := hphase }
  | mining => exact walk_mining s { hs with here := hphase }
  | offering found =>
      exact walk_offering found.length s { hs with here := ⟨found, hphase, rfl⟩ }
  | exited =>
      have hnone := ((hs.good.settled w).exited hw hphase).2
      rw [hs.watch] at hnone
      exact absurd hnone hvalue

/-- The look at the channel. -/
theorem read_at_head {s : MinerState} (hs : Stage T watch (AtHead w) s) {job : Job}
    (hjob : watch.value = some job) :
    ∃ s' os, minerStep config s (.read w) = some (s', os) ∧ reads w os = [some job] ∧
      (s'.workers w).currentJob.map Job.jobId = some job.jobId := by
  have hphase : (s.workers w).phase = .head := hs.here
  have hidle := (hs.good.settled w).idle (by simp [hphase])
  have hcurrent : ((s.workers w).adopt w s.watch).currentJob.map Job.jobId = some job.jobId := by
    rw [Worker.adopt_currentJob]
    split
    · next hid => rw [← hid, hs.watch, hjob]; rfl
    · rw [hs.watch, hjob]; rfl
  have hcall : ∀ req, cacheStep s.cache (.call w req)
      = some (s.cache.setCaller w (.locking req), []) := by
    intro req
    simp [cacheStep, hidle]
  obtain ⟨adopted, hadopted, hid⟩ := Option.map_eq_some_iff.mp hcurrent
  have hreads : ∀ cos : List CacheObs,
      reads w (.read w s.watch.value :: cos.map .cache) = [some job] := by
    intro cos
    simp [reads, MinerObs.readOf, hs.watch, hjob, List.filterMap_eq_nil_iff]
  by_cases hvm : ((s.workers w).adopt w s.watch).needsVm adopted = true
  · refine ⟨_, _, (by simp only [minerStep, hphase, hadopted, hvm, hcall, if_true]; rfl),
      hreads _, ?_⟩
    simp [hid]
  · refine ⟨_, _, (by simp only [minerStep, hphase, hadopted, if_neg hvm]; rfl), hreads [], ?_⟩
    simp [hid]

end Walk

/-- Once there is a job, no worker has ended or is stuck: whatever the builds
come to, the threads can take the worker to its next look at the channel, where
it takes over the latest job. -/
theorem latest_job_can_be_read (config : MinerConfig) {is : List MinerInput} {s : MinerState}
    {tr : List MinerObs}
    (h : Run (minerStep config) (fun _ _ => True) (.start config.threadCount) is s tr) {w : Nat}
    (hw : w < config.threadCount.toNat) {job : Job} (hjob : s.watch.value = some job)
    (available : Bool) :
    (s.workers w).phase ≠ .exited ∧
      ∃ js s' tr', Run (minerStep config) (fun _ i => i.isOwn available = true) s js s' tr' ∧
        (reads w tr').getLast? = some (some job) ∧
        (s'.workers w).currentJob.map Job.jobId = some job.jobId := by
  have hgood := good_of_run h
  refine ⟨fun hp => ?_, ?_⟩
  · rw [((hgood.settled w).exited hw hp).2] at hjob
    cases hjob
  · have hhead : Walk config config.threadCount s.watch available (fun _ => True) (AtHead w) :=
      walk_head hw (by simp [hjob])
    obtain ⟨js, t, tr', hrun, ht⟩ := hhead s ⟨hgood, rfl, trivial⟩
    obtain ⟨s', os, hread, hreads, hcurrent⟩ := read_at_head ht hjob
    exact ⟨_, s', _, hrun.snoc rfl hread, by simp [hreads], hcurrent⟩

/-- A worker that has begun a build. -/
theorem latest_job_can_be_read_building : ∃ is s tr,
    Run (minerStep worstConfig) (fun _ _ => True) (.start 1) is s tr ∧
      s.cache.callers 0 = .building (.ofJob zeroBlobJob) ∧
      ∃ js s' tr', Run (minerStep worstConfig) (fun _ i => i.isOwn false = true) s js s' tr' ∧
        (reads 0 tr').getLast? = some (some zeroBlobJob) := by
  have hexec : (exec (minerStep worstConfig) (.start 1)
      [.publish zeroBlobJob, .read 0, .cache (.lock 0)]).any
        (fun r => decide (r.1.cache.callers 0 = .building (.ofJob zeroBlobJob) ∧
          r.1.watch.value = some zeroBlobJob)) = true := by decide +kernel
  obtain ⟨s, tr, hrun, htest⟩ := anyRun_of_exec_test
    (p := fun (s : MinerState) _ => decide (s.cache.callers 0 = .building (.ofJob zeroBlobJob) ∧
      s.watch.value = some zeroBlobJob)) hexec
  obtain ⟨hbuilding, hvalue⟩ := of_decide_eq_true htest
  obtain ⟨-, js, s', tr', hown, hread, -⟩ :=
    latest_job_can_be_read worstConfig hrun (w := 0) (by decide) hvalue false
  exact ⟨_, s, tr, hrun, hbuilding, js, s', tr', hown, hread⟩

/-! ## Hashing between two looks at the channel -/

/-- The blobs worker `w` has hashed. -/
def MinerObs.hashes (w : Nat) : MinerObs → Nat
  | .batch v _ _ _ _ result => if v = w then result.hashed.length else 0
  | _ => 0

def hashCount (w : Nat) : List MinerObs → Nat
  | [] => 0
  | o :: os => o.hashes w + hashCount w os

/-- The blobs hashed since the last look at the channel. -/
def hashedSince (w : Nat) : Nat → List MinerObs → Nat
  | n, [] => n
  | n, o :: os => hashedSince w (if (o.readOf w).isSome then 0 else n + o.hashes w) os

section Stale

variable {config : MinerConfig} {s s' : MinerState} {i : MinerInput} {tr os : List MinerObs}
  {w : Nat}

theorem hashedSince_append (n : Nat) (tr os : List MinerObs) :
    hashedSince w n (tr ++ os) = hashedSince w (hashedSince w n tr) os := by
  induction tr generalizing n with
  | nil => rfl
  | cons o tr ih => exact ih _

/-- Without a look at the channel the hashes add up. -/
theorem hashedSince_of_reads (h : reads w os = []) (n : Nat) :
    hashedSince w n os = n + hashCount w os := by
  induction os generalizing n with
  | nil => rfl
  | cons o os ih =>
      have hnone : o.readOf w = none := by
        cases ho : o.readOf w with
        | none => rfl
        | some latest => simp [reads, ho] at h
      have hrest : reads w os = [] := by simpa [reads, hnone] using h
      rw [hashedSince, hnone, ih hrest, hashCount]
      simp [Nat.add_assoc]

/-- A worker that is about to mine has just looked; otherwise it has hashed one
batch at most. -/
structure Fresh (n : Nat) (phase : WorkerPhase) : Prop where
  le : n ≤ batchSize
  zero : phase = .inCache ∨ phase = .mining → n = 0

def AllFresh (s : MinerState) (tr : List MinerObs) : Prop :=
  ∀ w, Fresh (hashedSince w 0 tr) (s.workers w).phase

theorem length_hashed (hash : Bytes → Hash) {job : Job} (T c : UInt32) {blobs : List Bytes}
    (hb : BuffersOf job blobs) : (mineOneBatch hash job T c blobs).hashed.length ≤ batchSize := by
  obtain ⟨q, hswept⟩ := mineOneBatch_swept hash T c hb
  have hle := hswept.le
  rw [hswept.hashed, List.length_map, List.length_range]
  simp only [pipelineSize, batchSize]
  omega

/-- Nothing is seen of the worker. -/
def Silent (w : Nat) (os : List MinerObs) : Prop :=
  ∀ o ∈ os, o.readOf w = none ∧ o.hashes w = 0

theorem hashedSince_silent (h : Silent w os) (n : Nat) : hashedSince w n os = n := by
  induction os with
  | nil => rfl
  | cons o os ih =>
      obtain ⟨ho, hos⟩ := List.forall_mem_cons.mp h
      rw [hashedSince, ho.1, ho.2]
      exact ih hos

theorem silent_cache (w : Nat) (cos : List CacheObs) : Silent w (cos.map .cache) := by
  intro o ho
  obtain ⟨c, -, rfl⟩ := List.mem_map.mp ho
  exact ⟨rfl, rfl⟩

theorem silent_one {o : MinerObs} (h : o.readOf w = none ∧ o.hashes w = 0) : Silent w [o] :=
  List.forall_mem_singleton.mpr h

/-- A step of worker `w`, of which nothing is seen of the others. -/
theorem AllFresh.of_worker (h : AllFresh s tr) (w : Nat)
    (hphase : ∀ v, v ≠ w → (s'.workers v).phase = (s.workers v).phase)
    (hsilent : ∀ v, v ≠ w → Silent v os)
    (hw : Fresh (hashedSince w (hashedSince w 0 tr) os) (s'.workers w).phase) :
    AllFresh s' (tr ++ os) := by
  intro v
  rw [hashedSince_append]
  by_cases hv : v = w
  · subst hv
    exact hw
  · rw [hashedSince_silent (hsilent v hv), hphase v hv]
    exact h v

/-- A step that leaves the workers where they are. -/
theorem AllFresh.of_silent (h : AllFresh s tr)
    (hphase : ∀ v, (s'.workers v).phase = (s.workers v).phase) (hsilent : ∀ v, Silent v os) :
    AllFresh s' (tr ++ os) := by
  intro v
  rw [hashedSince_append, hashedSince_silent (hsilent v), hphase v]
  exact h v

theorem fresh_zero (phase : WorkerPhase) : Fresh 0 phase := ⟨Nat.zero_le _, fun _ => rfl⟩

theorem Fresh.setPhase {n : Nat} {phase phase' : WorkerPhase} (h : Fresh n phase)
    (hp : phase' ≠ .inCache ∧ phase' ≠ .mining) : Fresh n phase' :=
  ⟨h.le, fun h' => (h'.elim hp.1 hp.2).elim⟩

theorem allFresh_step (h : AllFresh s tr) (hsound : AllSound s tr)
    (hs : minerStep config s i = some (s', os)) : AllFresh s' (tr ++ os) := by
  cases minerMoves_of_step hs with
  | publish _ => exact h.of_silent (fun _ => rfl) fun _ => silent_one ⟨rfl, rfl⟩
  | dropSender => exact h.of_silent (fun _ => rfl) fun _ => List.forall_mem_nil _
  | @readNone w hp hj =>
      refine h.of_worker w (fun v hv => by simp [hv]) (fun v hv => silent_one ⟨?_, rfl⟩) ?_
      · simp [MinerObs.readOf, hv.symm]
      · simpa [hashedSince, MinerObs.readOf] using fresh_zero _
  | @readNewVm w job cache cos hp hj hc =>
      refine h.of_worker w (fun v hv => by simp [hv]) (fun v hv => ?_) ?_
      · refine List.forall_mem_cons.mpr ⟨⟨?_, rfl⟩, silent_cache v cos⟩
        simp [MinerObs.readOf, hv.symm]
      · rw [hashedSince, hashedSince_silent (silent_cache w cos)]
        simpa [MinerObs.readOf] using fresh_zero _
  | @readSameVm w job hp hj hv =>
      refine h.of_worker w (fun v hv => by simp [hv]) (fun v hv => silent_one ⟨?_, rfl⟩) ?_
      · simp [MinerObs.readOf, hv.symm]
      · simpa [hashedSince, MinerObs.readOf] using fresh_zero _
  | @changed w hp hv =>
      refine h.of_worker w (fun v hv => by simp [hv]) (fun _ _ => List.forall_mem_nil _) ?_
      rw [MinerState.setWorker_self]
      exact (h w).setPhase (by simp)
  | @exit w hp hclosed =>
      refine h.of_worker w (fun v hv => by simp [hv]) (fun _ _ => List.forall_mem_nil _) ?_
      rw [MinerState.setWorker_self]
      exact (h w).setPhase (by simp)
  | cache _ _ => exact h.of_silent (fun _ => rfl) fun v => silent_cache v _
  | @newVm w available job req dataset vm cache cos hp hj hr hc hvm =>
      have hsilent : ∀ v, Silent v (cos.map MinerObs.cache ++ [.vmCreated w job vm]) := fun v =>
        List.forall_mem_append.mpr ⟨silent_cache v cos, silent_one ⟨rfl, rfl⟩⟩
      refine h.of_worker w (fun v hv => by simp [hv]) (fun v _ => hsilent v) ?_
      rw [hashedSince_silent (hsilent w), (h w).zero (Or.inl hp)]
      exact fresh_zero _
  | @noVm w available job cache cos hp hj hc =>
      refine h.of_worker w (fun v hv => by simp [hv]) (fun v _ => silent_cache v cos) ?_
      rw [hashedSince_silent (silent_cache w cos), (h w).zero (Or.inl hp)]
      exact fresh_zero _
  | @batch w job vm batch hp hj hv hb =>
      refine h.of_worker w (fun v hv => by simp [hv]) (fun v hv => silent_one ⟨rfl, ?_⟩) ?_
      · simp [MinerObs.hashes, hv.symm]
      · have hlen := length_hashed (config.hash vm.dataset) config.threadCount
          (s.workers w).nonce ((hsound w).job.buffers job hj)
        rw [(h w).zero (Or.inr hp), MinerState.setWorker_self]
        refine ⟨?_, by simp⟩
        simpa [hashedSince, MinerObs.readOf, MinerObs.hashes, hb] using hlen
  | @noBatch w hp =>
      refine h.of_worker w (fun v hv => by simp [hv]) (fun _ _ => List.forall_mem_nil _) ?_
      rw [MinerState.setWorker_self]
      exact (h w).setPhase (by simp)
  | @offered w hp =>
      refine h.of_worker w (fun v hv => by simp [hv]) (fun _ _ => List.forall_mem_nil _) ?_
      rw [MinerState.setWorker_self]
      exact (h w).setPhase (by simp)
  | @offer w found rest sent hp hsent =>
      subst hsent
      refine h.of_worker w (fun v hv => by simp [hv]) (fun _ _ => silent_one ⟨rfl, rfl⟩) ?_
      rw [hashedSince_silent (silent_one ⟨rfl, rfl⟩), MinerState.trySend_workers,
        MinerState.setWorker_self]
      exact (h w).setPhase (by simp)
  | pop _ => exact h.of_silent (fun _ => rfl) fun _ => silent_one ⟨rfl, rfl⟩

end Stale

/-- From whenever on, a worker that does not look at the channel hashes the rest
of one batch. -/
theorem staleness_bounded (config : MinerConfig) {is : List MinerInput} {s : MinerState}
    {pre post : List MinerObs}
    (h : Run (minerStep config) (fun _ _ => True) (.start config.threadCount) is s (pre ++ post))
    (w : Nat) (hreads : reads w post = []) : hashCount w post ≤ batchSize := by
  have hall : AllSound s (pre ++ post) ∧ AllFresh s (pre ++ post) :=
    h.invariant (P := fun s tr => AllSound s tr ∧ AllFresh s tr)
      ⟨allSound_start _, fun _ => fresh_zero _⟩
      fun hp _ hs => ⟨allSound_step hp.1 hs, allFresh_step hp.2 hp.1 hs⟩
  have hle := (hall.2 w).le
  rw [hashedSince_append, hashedSince_of_reads hreads] at hle
  omega

/-- A whole batch after the look that took the job over. -/
theorem staleness_bounded_batch : ∃ is s pre post,
    Run (minerStep worstConfig) (fun _ _ => True) (.start 1) is s (pre ++ post) ∧
      0 < hashCount 0 post ∧ reads 0 post = [] ∧ hashCount 0 post ≤ batchSize := by
  have hexec : (exec (minerStep worstConfig) (.start 1)
      [.publish zeroBlobJob, .read 0, .cache (.lock 0), .cache (.built 0 true),
        .cache (.store 0), .createVm 0 true, .mine 0]).any
        (fun r => decide (0 < hashCount 0 (r.2.drop 2) ∧ reads 0 (r.2.drop 2) = [])) = true := by
    decide +kernel
  obtain ⟨s, tr, hrun, htest⟩ := anyRun_of_exec_test
    (p := fun (_ : MinerState) (tr : List MinerObs) =>
      decide (0 < hashCount 0 (tr.drop 2) ∧ reads 0 (tr.drop 2) = [])) hexec
  obtain ⟨hpos, hreads⟩ := of_decide_eq_true htest
  rw [← List.take_append_drop 2 tr] at hrun
  exact ⟨_, s, _, _, hrun, hpos, hreads, staleness_bounded worstConfig hrun 0 hreads⟩

end LiteXmr
