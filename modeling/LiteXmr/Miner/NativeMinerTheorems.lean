/-
LiteXmr.Miner.NativeMinerTheorems — the mining threads use no RandomX object
that is not there, and keep none that nobody needs.

`MinerState.holding` reads off the state of the threads which datasets should
be held, and by whom. `Matches` says that these are the ones that are held, and
that the VMs are those of the workers. A step keeps it, and its calls are sound
(`kept_of_step`): the state of a thread shows that what it is given something
in was free.

So every call is sound in every run (`native_calls_sound`), and what lives is
what the threads hold (`native_objects_owned`). A cache is the exception: it
stays when its dataset could not be allocated.
-/
import LiteXmr.Miner.DuplicateSharesTheorems
import LiteXmr.Miner.NativeMiner
import LiteXmr.Miner.ProgressTheorems
import LiteXmr.Randomx.ObjectsTheorems

namespace LiteXmr

open Lts Randomx

/-! ## What should be held -/

def DatasetState.dataset : DatasetState → Option Dataset
  | .ready _ dataset => some dataset
  | _ => none

def Caller.dataset : Caller → Option Dataset
  | .storing _ dataset | .returned _ dataset => dataset
  | _ => none

def Worker.dataset (worker : Worker) : Option Dataset :=
  if worker.phase = .exited then none else worker.vm.map Vm.dataset

def MinerState.holding (s : MinerState) : Holder → Option Dataset
  | .cache => s.cache.state.dataset
  | .caller w => (s.cache.callers w).dataset
  | .vm w => (s.workers w).dataset

@[simp] theorem Caller.dataset_notify (caller : Caller) :
    caller.notify.dataset = caller.dataset := by
  cases caller <;> rfl

theorem DatasetState.dataset_ofBuilt (key : String) (dataset : Option Dataset) :
    (ofBuilt key dataset).dataset = dataset := by
  cases dataset <;> rfl

theorem Worker.dataset_of_phase {worker : Worker} (h : worker.phase ≠ .exited) :
    worker.dataset = worker.vm.map Vm.dataset := if_neg h

section Holding

variable {s : MinerState} {w : Nat} {worker : Worker} {caller : Caller}

theorem holding_setWorker :
    (s.setWorker w worker).holding = Function.update s.holding (.vm w) worker.dataset := by
  funext o
  cases o with
  | vm v =>
      by_cases hv : v = w
      · subst hv
        simp [MinerState.holding]
      · rw [Function.update_of_ne (by simpa using hv)]
        simp [MinerState.holding, hv]
  | _ => rfl

theorem holding_setCaller (s : MinerState) (w : Nat) (caller : Caller) :
    (s.setCache (s.cache.setCaller w caller)).holding =
      Function.update s.holding (.caller w) caller.dataset := by
  funext o
  cases o with
  | caller v =>
      by_cases hv : v = w
      · subst hv
        simp [MinerState.holding]
      · rw [Function.update_of_ne (by simpa using hv)]
        simp [MinerState.holding, hv]
  | _ => rfl

/-- A worker that goes on with the VM it has. -/
theorem holding_setWorker_same (hp : (s.workers w).phase ≠ .exited)
    (hp' : worker.phase ≠ .exited) (hvm : worker.vm = (s.workers w).vm) :
    (s.setWorker w worker).holding = s.holding := by
  rw [holding_setWorker, Function.update_eq_self_iff, Worker.dataset_of_phase hp', hvm]
  exact (Worker.dataset_of_phase hp).symm

/-- A call that goes on with the dataset it has. -/
theorem holding_setCaller_same (h : caller.dataset = (s.cache.callers w).dataset) :
    (s.setCache (s.cache.setCaller w caller)).holding = s.holding := by
  rw [holding_setCaller, Function.update_eq_self_iff, h]
  rfl

/-- A worker that calls the cache. -/
theorem holding_call {req : Request} (hc : s.cache.callers w = .idle)
    (hp : (s.workers w).phase ≠ .exited) (hp' : worker.phase ≠ .exited)
    (hvm : worker.vm = (s.workers w).vm) :
    ((s.setWorker w worker).setCache (s.cache.setCaller w (.locking req))).holding =
      s.holding := by
  refine (holding_setCaller (s.setWorker w worker) w (.locking req)).trans ?_
  rw [holding_setWorker_same hp hp' hvm, Function.update_eq_self_iff]
  simp [MinerState.holding, hc, Caller.dataset]

end Holding

/-! ## The objects are the ones that should be held -/

structure Matches (s : MinerState) (n : Objects Holder) : Prop where
  content : n.content = s.holding
  slots : ∀ o, n.vmAt o ≠ none → ∃ w, o = .vm w
  vms : ∀ w, n.vmAt (.vm w) = none → s.holding (.vm w) = none

section Step

variable {config : MinerConfig} {s s' : MinerState} {n n' : Objects Holder}
  {tr : List NativeCall} {os : List MinerObs} {w : Nat} {o : Holder} {d : Option Dataset}

namespace Matches

theorem quiet (h : Matches s n) (hsame : s'.holding = s.holding) : Matches s' n where
  content := by rw [hsame, h.content]
  slots := h.slots
  vms w hw := by rw [hsame, h.vms w hw]

/-- One owner other than a VM holds something else. -/
theorem update (h : Matches s n) (ho : ∀ w, o ≠ .vm w)
    (hcontent : n'.content = Function.update n.content o d) (hvm : n'.vmAt = n.vmAt)
    (hholding : s'.holding = Function.update s.holding o d) : Matches s' n' where
  content := by rw [hcontent, hholding, h.content]
  slots p hp := h.slots p (by rwa [hvm] at hp)
  vms w hw := by
    rw [hholding, Function.update_of_ne (ho w).symm]
    exact h.vms w (by rwa [hvm] at hw)

theorem holds_eq_none (h : Matches s n) (hl : Ledger n tr) (ho : s.holding o = none) :
    n.arcs.holds o = none :=
  hl.content_eq_none.mp (by rw [h.content, ho])

theorem vmAt_eq_none (h : Matches s n) (ho : ∀ w, o ≠ .vm w) : n.vmAt o = none := by
  by_contra hsome
  obtain ⟨w, rfl⟩ := h.slots o hsome
  exact ho w rfl

end Matches

/-- An action that keeps the ledger and brings the objects to what the next state
should hold. -/
structure Agrees (tr : List NativeCall) (s' : MinerState)
    (r : Objects Holder × List NativeCall) : Prop where
  kept : Kept tr r
  same : Matches s' r.1

theorem agrees_skip (hm : Matches s n) (hl : Ledger n tr) (hsame : s'.holding = s.holding) :
    Agrees tr s' (Action.skip n) :=
  ⟨.skip hl, hm.quiet hsame⟩

theorem agrees_dropArc (hm : Matches s n) (hl : Ledger n tr) (ho : ∀ w, o ≠ .vm w)
    (hholding : s'.holding = Function.update s.holding o none) :
    Agrees tr s' (dropArc o n) :=
  ⟨.dropArc hl (hm.vmAt_eq_none ho), hm.update ho content_dropArc rfl hholding⟩

/-! ### The cache -/

theorem agrees_lock (hm : Matches s n) (hl : Ledger n tr) {cache : RxDatasetCache}
    {cos : List CacheObs} (hc : cacheStep s.cache (.lock w) = some (cache, cos)) :
    Agrees tr (s.setCache cache) (lockAction s.cache w n) := by
  cases cacheMoves_of_step hc with
  | @hit _ req dataset hw hstate =>
      have haction : lockAction s.cache w = cloneArc .cache (.caller w) := by
        simp [lockAction, hw, hstate, DatasetState.look]
      have hfree : n.arcs.holds (.caller w) = none :=
        hm.holds_eq_none hl (by simp [MinerState.holding, hw, Caller.dataset])
      have hcache : n.content .cache = some dataset := by
        rw [hm.content]
        simp [MinerState.holding, hstate, DatasetState.dataset]
      rw [haction]
      refine ⟨.cloneArc hl hfree, hm.update (by simp) (content_cloneArc hfree) rfl ?_⟩
      rw [holding_setCaller, hcache]
      rfl
  | @miss _ req hw hstate =>
      have haction : lockAction s.cache w = .skip := by
        simp [lockAction, hw, hstate, DatasetState.look]
      rw [haction]
      exact agrees_skip hm hl (holding_setCaller_same (by simp [hw, Caller.dataset]))
  | @wait _ req hw hstate =>
      have haction : lockAction s.cache w = .skip := by
        simp [lockAction, hw, hstate, DatasetState.look]
      rw [haction]
      exact agrees_skip hm hl (holding_setCaller_same (by simp [hw, Caller.dataset]))
  | @claim _ req hw hstate =>
      have haction : lockAction s.cache w = dropArc .cache := by
        simp [lockAction, hw, hstate]
      rw [haction]
      refine agrees_dropArc hm hl (by simp) ?_
      funext o
      cases o with
      | cache => rfl
      | caller v =>
          by_cases hv : v = w
          · subst hv
            simp [MinerState.holding, hw, Caller.dataset]
          · simp [MinerState.holding, hv]
      | vm v => rfl

theorem agrees_store (hm : Matches s n) (hl : Ledger n tr) {cache : RxDatasetCache}
    {cos : List CacheObs} (hc : cacheStep s.cache (.store w) = some (cache, cos)) :
    Agrees tr (s.setCache cache) (storeAction s.cache w n) := by
  cases cacheMoves_of_step hc with
  | @store _ req dataset hw =>
      have hholding : (s.setCache
          { state := .ofBuilt req.cacheKey dataset
            callers := Function.update (fun v => (s.cache.callers v).notify) w
              (.returned req dataset) }).holding =
          Function.update s.holding .cache dataset := by
        funext o
        cases o with
        | cache => simp [MinerState.holding, DatasetState.dataset_ofBuilt]
        | caller v =>
            by_cases hv : v = w
            · subst hv
              simp [MinerState.holding, hw, Caller.dataset]
            · simp [MinerState.holding, hv]
        | vm v => rfl
      cases dataset with
      | none =>
          have haction : storeAction s.cache w = dropArc .cache := by simp [storeAction, hw]
          rw [haction]
          exact agrees_dropArc hm hl (by simp) hholding
      | some dataset =>
          have haction : storeAction s.cache w =
              (dropArc .cache).andThen (cloneArc (.caller w) .cache) := by
            simp [storeAction, hw]
          have hfree : (dropArc .cache n).1.arcs.holds .cache = none :=
            Counted.drop_holds_self
          have hbuilt : n.content (.caller w) = some dataset := by
            rw [hm.content]
            simp [MinerState.holding, hw, Caller.dataset]
          rw [haction]
          refine ⟨(Kept.dropArc hl (hm.vmAt_eq_none (by simp))).andThen
            fun hl' => .cloneArc hl' hfree, hm.update (by simp) ?_ rfl hholding⟩
          refine (content_cloneArc hfree).trans ?_
          rw [content_dropArc, Function.update_idem, Function.update_of_ne (by simp), hbuilt]

theorem agrees_built (hm : Matches s n) (hl : Ledger n tr) {allocs : DatasetAllocs}
    {cache : RxDatasetCache} {cos : List CacheObs}
    (hc : cacheStep s.cache (.built w allocs.available) = some (cache, cos)) :
    Agrees tr (s.setCache cache) (buildAction s.cache w allocs n) := by
  cases cacheMoves_of_step hc with
  | @built _ _ req dataset hw hdataset =>
      have haction : buildAction s.cache w allocs =
          newForAlgo (.caller w) req.algo req.seedBytes allocs := by
        simp [buildAction, hw]
      have hfree : n.arcs.holds (.caller w) = none :=
        hm.holds_eq_none hl (by simp [MinerState.holding, hw, Caller.dataset])
      rw [haction]
      refine ⟨.newForAlgo hl hfree _ _ _, hm.update (by simp)
        (content_newForAlgo hl hfree _ _ _) vmAt_newForAlgo ?_⟩
      rw [holding_setCaller, hdataset]
      rfl

/-! ### The VMs -/

theorem kept_keepNewVm (hl : Ledger n tr) (w : Nat) : Kept tr (keepNewVm w n) := by
  unfold keepNewVm
  split
  · exact .replaceVm hl (by simp)
  · exact .of_none hl

/-- A call of the cache came back with a dataset, and a VM was made of it. -/
theorem agrees_newVm (hm : Matches s n) (hl : Ledger n tr) {allocs : VmAllocs} {req : Request}
    {dataset : Dataset} {vm : Vm} {worker : Worker}
    (hw : s.cache.callers w = .returned req (some dataset))
    (hvm : Vm.new dataset allocs.available = some vm) (hp : worker.phase ≠ .exited)
    (hworker : worker.vm = some vm) :
    Agrees tr ((s.setWorker w worker).setCache (s.cache.setCaller w .idle))
      (createVmAction s.cache w allocs n) := by
  have haction : createVmAction s.cache w allocs =
      (newVm (.caller w) allocs).andThen (keepNewVm w) := by
    simp [createVmAction, hw]
  have hfree : n.vmAt (.caller w) = none := hm.vmAt_eq_none (by simp)
  have hheld : n.content (.caller w) = some dataset := by
    rw [hm.content]
    simp [MinerState.holding, hw, Caller.dataset]
  obtain ⟨hcontent, v, hmade⟩ := newVm_of_some hheld hvm
  have hkeep : keepNewVm w (newVm (.caller w) allocs n).1 =
      replaceVm (.caller w) (.vm w) (newVm (.caller w) allocs n).1 := by
    simp [keepNewVm, hmade]
  have hdone : ((newVm (.caller w) allocs).andThen (keepNewVm w) n).1 =
      (replaceVm (.caller w) (.vm w) (newVm (.caller w) allocs n).1).1 := by
    rw [Action.andThen, hkeep]
  have hvmAt : ((newVm (.caller w) allocs).andThen (keepNewVm w) n).1.vmAt =
      Function.update (Function.update n.vmAt (.caller w) none) (.vm w) (some v) := by
    rw [hdone, vmAt_replaceVm (by simp), hmade, Function.update_idem, Function.update_self]
  rw [haction]
  refine ⟨(Kept.newVm hl hfree allocs).andThen fun hl' => kept_keepNewVm hl' w, ?_, ?_, ?_⟩
  · have hdataset : worker.dataset = some dataset := by
      rw [Worker.dataset_of_phase hp, hworker, Option.map_some, Vm.dataset_of_new hvm]
    have hcall := holding_setCaller (s.setWorker w worker) w .idle
    rw [hdone, content_replaceVm (by simp), hcontent, hheld, hm.content]
    refine Eq.trans ?_ hcall.symm
    rw [holding_setWorker, hdataset, Function.update_comm (by simp)]
    rfl
  · intro o ho
    rw [hvmAt] at ho
    by_cases how : o = .vm w
    · exact ⟨w, how⟩
    · rw [Function.update_of_ne how] at ho
      by_cases hoc : o = .caller w
      · subst hoc
        simp at ho
      · rw [Function.update_of_ne hoc] at ho
        exact hm.slots o ho
  · intro v' hv'
    rw [hvmAt] at hv'
    by_cases hvw : v' = w
    · subst hvw
      simp at hv'
    · rw [Function.update_of_ne (by simpa using hvw), Function.update_of_ne (by simp)] at hv'
      have hother := hm.vms v' hv'
      simpa [MinerState.holding, hvw] using hother

/-- A call of the cache came back, and there is no new VM. -/
theorem agrees_noVm (hm : Matches s n) (hl : Ledger n tr) {allocs : VmAllocs} {req : Request}
    {dataset : Option Dataset} {worker : Worker}
    (hw : s.cache.callers w = .returned req dataset)
    (hvm : (dataset.bind fun dataset => Vm.new dataset allocs.available) = none)
    (hp : (s.workers w).phase ≠ .exited) (hp' : worker.phase ≠ .exited)
    (hworker : worker.vm = (s.workers w).vm) :
    Agrees tr ((s.setWorker w worker).setCache (s.cache.setCaller w .idle))
      (createVmAction s.cache w allocs n) := by
  have hholding : ((s.setWorker w worker).setCache (s.cache.setCaller w .idle)).holding =
      Function.update s.holding (.caller w) none := by
    have hcall := holding_setCaller (s.setWorker w worker) w .idle
    refine hcall.trans ?_
    rw [holding_setWorker_same hp hp' hworker]
    rfl
  cases dataset with
  | none =>
      have haction : createVmAction s.cache w allocs = .skip := by simp [createVmAction, hw]
      rw [haction]
      refine agrees_skip hm hl ?_
      rw [hholding, Function.update_eq_self_iff]
      simp [MinerState.holding, hw, Caller.dataset]
  | some dataset =>
      have hfree : n.vmAt (.caller w) = none := hm.vmAt_eq_none (by simp)
      have hheld : n.content (.caller w) = some dataset := by
        rw [hm.content]
        simp [MinerState.holding, hw, Caller.dataset]
      have hnone : newVm (.caller w) allocs n = dropArc (.caller w) n :=
        newVm_of_none hheld hvm
      have hkeep : ∀ n' : Objects Holder, n'.vmAt (.caller w) = none →
          keepNewVm w n' = (n', []) := fun n' hn' => by simp [keepNewVm, hn']
      have haction : createVmAction s.cache w allocs n = dropArc (.caller w) n := by
        have hthen : createVmAction s.cache w allocs =
            (newVm (.caller w) allocs).andThen (keepNewVm w) := by
          simp [createVmAction, hw]
        rw [hthen, Action.andThen, hnone, hkeep (dropArc (.caller w) n).1 hfree, List.append_nil]
      rw [haction]
      exact agrees_dropArc hm hl (by simp) hholding

/-- A worker ends. -/
theorem agrees_exit (hm : Matches s n) (hl : Ledger n tr) {worker : Worker}
    (hp : worker.phase = .exited) :
    Agrees tr (s.setWorker w worker) (exitAction worker w n) := by
  have hholding : (s.setWorker w worker).holding = Function.update s.holding (.vm w) none := by
    rw [holding_setWorker, Worker.dataset, if_pos hp]
  rw [exitAction, if_pos hp]
  refine ⟨.dropVm hl _, ?_, fun o ho => ?_, fun v hv => ?_⟩
  · rw [content_dropVm, hholding, hm.content]
  · rw [vmAt_dropVm] at ho
    by_cases how : o = .vm w
    · exact ⟨w, how⟩
    · rw [Function.update_of_ne how] at ho
      exact hm.slots o ho
  · rw [vmAt_dropVm] at hv
    rw [hholding]
    by_cases hvw : v = w
    · rw [hvw, Function.update_self]
    · rw [Function.update_of_ne (by simpa using hvw)] at hv ⊢
      exact hm.vms v hv

theorem hashBatch_objects (o : Holder) (inputs : List Bytes) (n : Objects Holder) :
    (hashBatch o inputs n).1 = n := by
  unfold hashBatch
  split <;> rfl

/-! ### A step -/

/-- What `create_randomx_vm` comes to. -/
theorem createVm_of_step {available : Bool}
    (h : minerStep config s (.createVm w available) = some (s', os)) :
    ∃ job req dataset cache cos, (s.workers w).phase = .inCache ∧
      (s.workers w).currentJob = some job ∧ s.cache.callers w = .returned req dataset ∧
      cacheStep s.cache (.ret w) = some (cache, cos) ∧
      ((dataset.bind fun dataset => Vm.new dataset available) = none →
        s' = (s.setWorker w { s.workers w with phase := .head }).setCache cache) ∧
      ∀ vm, (dataset.bind fun dataset => Vm.new dataset available) = some vm →
        s' = (s.setWorker w
          { s.workers w with
            phase := .mining, vm := some vm
            currentSeed := some job.seed, currentAlgo := some job.algo }).setCache cache := by
  simp only [minerStep] at h
  split at h
  · next job req dataset cache cos hp hj hr hc =>
      refine ⟨job, req, dataset, cache, cos, hp, hj, hr, hc, fun hnone => ?_, fun vm hsome => ?_⟩
      · rw [hnone] at h
        cases h
        rfl
      · rw [hsome] at h
        cases h
        rfl
  · cases h

theorem agrees_createVm (hm : Matches s n) (hl : Ledger n tr) {allocs : VmAllocs}
    (hs : minerStep config s (.createVm w allocs.available) = some (s', os)) :
    Agrees tr s' (createVmAction s.cache w allocs n) := by
  obtain ⟨job, req, dataset, cache, cos, hp, -, hw, hc, hnone, hsome⟩ := createVm_of_step hs
  obtain ⟨rfl, -⟩ := cacheStep_ret hw hc
  cases hvm : dataset.bind fun dataset => Vm.new dataset allocs.available with
  | none =>
      rw [hnone hvm]
      exact agrees_noVm hm hl hw hvm (by simp [hp]) (by simp) rfl
  | some vm =>
      obtain ⟨dataset, rfl, hnew⟩ := Option.bind_eq_some_iff.mp hvm
      rw [hsome vm hvm]
      exact agrees_newVm hm hl hw hnew (by simp) rfl

/-- A step of the threads in which no memory is asked for. -/
theorem agrees_plain (hm : Matches s n) (hl : Ledger n tr) {input : MinerInput}
    (hi : (NativeInput.miner input).toMiner = some input)
    (hs : minerStep config s input = some (s', os)) :
    Agrees tr s' (nativeAction s s' os (.miner input) n) := by
  cases minerMoves_of_step hs with
  | publish _ => exact agrees_skip hm hl rfl
  | dropSender => exact agrees_skip hm hl rfl
  | readNone hp _ =>
      exact agrees_skip hm hl (holding_setWorker_same (by simp [hp]) (by simp) (by simp))
  | @readNewVm w job cache cos hp hj hc =>
      obtain ⟨rfl, -⟩ := cacheStep_call hc
      refine agrees_skip hm hl ?_
      have hidle : s.cache.callers w = .idle := by
        cases cacheMoves_of_step hc with
        | call hidle => exact hidle
      exact holding_call hidle (by simp [hp]) (by simp) (by simp)
  | readSameVm hp _ _ =>
      exact agrees_skip hm hl (holding_setWorker_same (by simp [hp]) (by simp) (by simp))
  | @changed w hp _ =>
      have haction : exitAction ((s.setWorker w
          { s.workers w with phase := .head, seen := s.watch.version }).workers w) w = .skip := by
        simp [exitAction]
      simp only [nativeAction, haction]
      exact agrees_skip hm hl (holding_setWorker_same (by simp [hp]) (by simp) rfl)
  | @exit w hp _ =>
      simp only [nativeAction, MinerState.setWorker_self]
      exact agrees_exit hm hl rfl
  | @cache input cache cos hinternal hc =>
      cases input with
      | call w req => cases hinternal
      | ret w => cases hinternal
      | built w available => cases hi
      | lock w => exact agrees_lock hm hl hc
      | store w => exact agrees_store hm hl hc
      | wake w =>
          cases cacheMoves_of_step hc with
          | wake hw =>
              exact agrees_skip hm hl (holding_setCaller_same (by simp [hw, Caller.dataset]))
  | newVm _ _ _ _ _ => cases hi
  | noVm _ _ _ => cases hi
  | @batch w job vm batch hp _ _ _ =>
      refine ⟨.hashBatch hl _ _, ?_⟩
      have hsame : (nativeAction s (s.setWorker w
          { s.workers w with
            phase := .offering (batch.shares.map fun share => { share, job })
            nonce := batch.nonce, blobs := batch.blobs })
          [.batch w job vm (s.workers w).nonce (s.workers w).blobs batch]
          (.miner (.mine w)) n).1 = n := hashBatch_objects _ _ _
      rw [hsame]
      exact hm.quiet (holding_setWorker_same (by simp [hp]) (by simp) rfl)
  | noBatch hp =>
      exact agrees_skip hm hl (holding_setWorker_same (by simp [hp]) (by simp) rfl)
  | offered hp =>
      exact agrees_skip hm hl (holding_setWorker_same (by simp [hp]) (by simp) rfl)
  | @offer w found rest sent hp hsent =>
      subst hsent
      refine agrees_skip hm hl ?_
      have hsame : ((s.setWorker w { s.workers w with phase := .offering rest }).trySend
          found).1.holding =
          (s.setWorker w { s.workers w with phase := .offering rest }).holding := by
        funext o
        cases o <;> simp [MinerState.holding]
      exact hsame.trans (holding_setWorker_same (by simp [hp]) (by simp) rfl)
  | pop _ => exact agrees_skip hm hl rfl

/-- An input in which no memory is asked for. -/
theorem toMiner_plain {i : NativeInput} {input : MinerInput} (h : i.toMiner = some input)
    (hbuilt : ∀ w available, input ≠ .cache (.built w available))
    (hvm : ∀ w available, input ≠ .createVm w available) : i = .miner input := by
  cases i with
  | miner input' =>
      unfold NativeInput.toMiner at h
      split at h <;> simp_all
  | built w allocs =>
      cases h
      exact absurd rfl (hbuilt w _)
  | createVm w allocs =>
      cases h
      exact absurd rfl (hvm w _)

theorem agrees_step (hm : Matches s n) (hl : Ledger n tr) {i : NativeInput}
    {input : MinerInput} (hi : i.toMiner = some input)
    (hs : minerStep config s input = some (s', os)) :
    Agrees tr s' (nativeAction s s' os i n) := by
  cases i with
  | miner input' =>
      have hsame : input' = input := by
        unfold NativeInput.toMiner at hi
        split at hi <;> simp_all
      subst hsame
      exact agrees_plain hm hl hi hs
  | built w allocs =>
      cases hi
      cases minerMoves_of_step hs with
      | cache _ hc => exact agrees_built hm hl hc
  | createVm w allocs =>
      cases hi
      exact agrees_createVm hm hl hs

end Step

/-! ## Runs -/

def NativeObs.callOf : NativeObs → Option NativeCall
  | .call x => some x
  | .miner _ => none

def NativeObs.minerOf : NativeObs → Option MinerObs
  | .miner o => some o
  | .call _ => none

/-- The calls of RandomX in a run. -/
def calls (tr : List NativeObs) : List NativeCall := tr.filterMap NativeObs.callOf

theorem calls_append (tr os : List NativeObs) : calls (tr ++ os) = calls tr ++ calls os :=
  List.filterMap_append

@[simp] theorem calls_done (xs : List NativeCall) (os : List MinerObs) :
    calls (xs.map .call ++ os.map .miner) = xs := by
  have hcalls : calls (xs.map .call) = xs := by
    rw [calls, List.filterMap_map]
    exact List.filterMap_some
  have hnone : calls (os.map .miner) = [] := by
    rw [calls, List.filterMap_map]
    exact List.filterMap_eq_nil_iff.mpr fun _ _ => rfl
  rw [calls_append, hcalls, hnone, List.append_nil]

section Runs

variable {config : MinerConfig} {s s' : NativeMiner} {i : NativeInput}
  {is : List NativeInput} {tr os : List NativeObs} {ok : NativeMiner → NativeInput → Prop}

theorem native_of_step (h : nativeStep config s i = some (s', os)) :
    ∃ input mos, i.toMiner = some input ∧
      minerStep config s.miner input = some (s'.miner, mos) ∧
      s'.objects = (nativeAction s.miner s'.miner mos i s.objects).1 ∧
      os = (nativeAction s.miner s'.miner mos i s.objects).2.map .call ++ mos.map .miner := by
  unfold nativeStep at h
  split at h
  · cases h
  · next input hi =>
      split at h
      · cases h
      · next miner mos hs =>
          cases h
          exact ⟨input, mos, hi, hs, rfl, rfl⟩

/-- What holds of the objects and of the calls in every run. -/
structure NativeSound (s : NativeMiner) (tr : List NativeObs) : Prop where
  ledger : Ledger s.objects (calls tr)
  same : Matches s.miner s.objects
  sound : Justified Sound (calls tr)

theorem nativeSound_start (T : UInt32) : NativeSound (.start T) [] where
  ledger := ledger_empty
  same :=
    { content := by
        funext o
        cases o with
        | vm w =>
            by_cases hw : w < T.toNat <;>
              simp [NativeMiner.start, MinerState.start, MinerState.holding, Worker.dataset,
                Worker.new, Objects.content, Objects.empty, Counted.empty, hw]
        | _ => rfl
      slots := fun _ ho => absurd rfl ho
      vms := fun w _ => by
        by_cases hw : w < T.toNat <;>
          simp [NativeMiner.start, MinerState.start, MinerState.holding, Worker.dataset,
            Worker.new, hw] }
  sound := justified_nil

theorem nativeSound_step (h : NativeSound s tr) (hs : nativeStep config s i = some (s', os)) :
    NativeSound s' (tr ++ os) := by
  obtain ⟨input, mos, hi, hminer, hobjects, rfl⟩ := native_of_step hs
  have hagrees : Agrees (calls tr) s'.miner
      (nativeAction s.miner s'.miner mos i s.objects) := agrees_step h.same h.ledger hi hminer
  refine ⟨?_, ?_, ?_⟩
  · rw [calls_append, calls_done, hobjects]
    exact hagrees.kept.ledger
  · rw [hobjects]
    exact hagrees.same
  · rw [calls_append, calls_done]
    exact h.sound.append hagrees.kept.sound

theorem nativeSound_of_run
    (h : Run (nativeStep config) ok (.start config.threadCount) is s tr) : NativeSound s tr :=
  h.invariant (nativeSound_start _) fun hsound _ hs => nativeSound_step hsound hs

/-- A run with objects is one of the threads. -/
theorem minerRun_of_native {okm : MinerState → MinerInput → Prop}
    (hok : ∀ {s : NativeMiner} {i : NativeInput} {input : MinerInput},
      ok s i → i.toMiner = some input → okm s.miner input)
    (h : Run (nativeStep config) ok (.start config.threadCount) is s tr) :
    ∃ js, Run (minerStep config) okm (.start config.threadCount) js s.miner
      (tr.filterMap NativeObs.minerOf) := by
  refine h.project NativeMiner.miner NativeObs.minerOf ?_
  intro s s' os i hoki hs
  obtain ⟨input, mos, hi, hminer, -, rfl⟩ := native_of_step hs
  refine Or.inr ⟨input, hok hoki hi, ?_⟩
  have hcalls : ∀ xs : List NativeCall,
      (xs.map NativeObs.call).filterMap NativeObs.minerOf = [] := fun xs => by
    rw [List.filterMap_map]
    exact List.filterMap_eq_nil_iff.mpr fun _ _ => rfl
  have hobs : (mos.map NativeObs.miner).filterMap NativeObs.minerOf = mos := by
    rw [List.filterMap_map]
    exact List.filterMap_some
  rw [List.filterMap_append, hcalls, hobs, List.nil_append]
  exact hminer

end Runs

/-! ## No use after release -/

/-- A worker mines on a first seed and then makes a VM for another one. -/
def reseededJob : Job :=
  { zeroBlobJob with jobId := "k", seedHash := some "01" }

def allThere : DatasetAllocs :=
  { headerCompat := true, cacheLargePages := false, cache := true
    datasetLargePages := false, dataset := true }

def makesVm (job : Job) : List NativeInput :=
  [.miner (.publish job), .miner (.read 0), .miner (.cache (.lock 0)), .built 0 allThere,
    .miner (.cache (.store 0)), .createVm 0 { largePages := false, plain := true }]

/-- No run uses an object of RandomX before it is made or after it is released, and none
releases an object twice. -/
theorem native_calls_sound (config : MinerConfig) {is : List NativeInput} {s : NativeMiner}
    {tr : List NativeObs}
    (h : Run (nativeStep config) (fun _ _ => True) (.start config.threadCount) is s tr) :
    Justified Sound (calls tr) :=
  (nativeSound_of_run h).sound

/-- The second VM takes the place of the first, whose dataset is then released. -/
def replacement : List NativeCall :=
  [.createVm 0 0, .createVm 1 1, .destroyVm 0, .releaseDataset 0]

theorem native_calls_sound_reseeded : ∃ is s tr,
    Run (nativeStep worstConfig) (fun _ _ => True) (.start 1) is s tr ∧
      replacement.Sublist (calls tr) ∧
      Justified Sound (calls tr) := by
  have hexec : (exec (nativeStep worstConfig) (.start 1)
      (makesVm zeroBlobJob ++ [.miner (.mine 0), .miner (.offer 0)] ++ makesVm reseededJob)).any
        (fun r => decide (replacement.Sublist (calls r.2))) = true := by
    decide +kernel
  obtain ⟨s, tr, hrun, htest⟩ := anyRun_of_exec_test
    (p := fun (_ : NativeMiner) (tr : List NativeObs) => decide (replacement.Sublist (calls tr)))
    hexec
  exact ⟨_, s, tr, hrun, of_decide_eq_true htest, native_calls_sound worstConfig hrun⟩

/-! ## What is left -/

section Owned

variable {config : MinerConfig} {s : MinerState}

/-- The holders there are with `T` threads. -/
def holders (T : Nat) : Finset Holder :=
  insert .cache ((Finset.range T).image .caller ∪ (Finset.range T).image .vm)

theorem card_holders (T : Nat) : (holders T).card ≤ 2 * T + 1 := by
  have hcaller := Finset.card_image_le (s := Finset.range T) (f := Holder.caller)
  have hvm := Finset.card_image_le (s := Finset.range T) (f := Holder.vm)
  have hunion := Finset.card_union_le ((Finset.range T).image Holder.caller)
    ((Finset.range T).image Holder.vm)
  have hinsert := Finset.card_insert_le Holder.cache
    ((Finset.range T).image Holder.caller ∪ (Finset.range T).image Holder.vm)
  rw [Finset.card_range] at hcaller hvm
  unfold holders
  omega

theorem mem_holders {is : List MinerInput} {tr : List MinerObs}
    {ok : MinerState → MinerInput → Prop}
    (h : Run (minerStep config) ok (.start config.threadCount) is s tr) {o : Holder}
    (ho : s.holding o ≠ none) : o ∈ holders config.threadCount.toNat := by
  cases o with
  | cache => simp [holders]
  | caller w =>
      have hw : w < config.threadCount.toNat := by
        refine lt_of_run h fun hphase => ?_
        have hidle := ((good_of_run h).settled w).idle (by simp [hphase])
        exact ho (by simp [MinerState.holding, hidle, Caller.dataset])
      simp [holders, hw]
  | vm w =>
      have hw : w < config.threadCount.toNat := by
        refine lt_of_run h fun hphase => ?_
        exact ho (by simp [MinerState.holding, Worker.dataset, hphase])
      simp [holders, hw]

end Owned

/-- What lives after the run, and who has it. -/
structure Owned (threadCount : UInt32) (s : NativeMiner) (tr : List NativeObs) : Prop where
  dataset : ∀ d, DatasetLive (calls tr) d ↔ s.objects.arcs.Held d
  /-- The holders are the ones the state of the threads tells. -/
  holder : ∀ o, s.objects.arcs.holds o ≠ none ↔ s.miner.holding o ≠ none
  vm : ∀ v, VmLive (calls tr) v ↔ ∃ w, s.objects.vmAt (.vm w) = some v
  worker : ∀ w, s.objects.vmAt (.vm w) ≠ none ↔ s.miner.holding (.vm w) ≠ none
  /-- A cache stays exactly when no dataset was filled from it. -/
  cache : ∀ c, CacheLive (calls tr) c ↔
    .allocCache c ∈ calls tr ∧ ∀ d, .initDataset d c ∉ calls tr
  atMost : ∀ ds : Finset Nat, (∀ d ∈ ds, DatasetLive (calls tr) d) →
    ds.card ≤ 2 * threadCount.toNat + 1

/-- Datasets and VMs are released as soon as no thread and no state of the cache holds
them; a cache whose dataset could not be allocated is never released. -/
theorem native_objects_owned (config : MinerConfig) {is : List NativeInput} {s : NativeMiner}
    {tr : List NativeObs}
    (h : Run (nativeStep config) (fun _ _ => True) (.start config.threadCount) is s tr) :
    Owned config.threadCount s tr := by
  have hsound := nativeSound_of_run h
  obtain ⟨js, hminer⟩ : ∃ js, Run (minerStep config) (fun _ _ => True)
      (.start config.threadCount) js s.miner (tr.filterMap NativeObs.minerOf) :=
    minerRun_of_native (fun _ _ => trivial) h
  have hholder : ∀ o, s.objects.arcs.holds o ≠ none ↔ s.miner.holding o ≠ none := fun o => by
    rw [← hsound.same.content]
    exact (not_congr hsound.ledger.content_eq_none).symm
  refine ⟨fun d => hsound.ledger.datasetLive, hholder, fun v => ?_, fun w => ?_,
    fun c => hsound.ledger.cacheLive, fun ds hds => ?_⟩
  · rw [hsound.ledger.vmLive]
    constructor
    · rintro ⟨o, ho⟩
      obtain ⟨w, rfl⟩ := hsound.same.slots o (by simp [ho])
      exact ⟨w, ho⟩
    · rintro ⟨w, hw⟩
      exact ⟨_, hw⟩
  · refine ⟨fun hv => ?_, fun hheld hv => hheld (hsound.same.vms w hv)⟩
    obtain ⟨v, hv⟩ := Option.ne_none_iff_exists'.mp hv
    obtain ⟨d, -, hd⟩ := hsound.ledger.vmHeld _ v hv
    exact (hholder _).mp (by simp [hd])
  · -- every dataset that lives is what one of the holders holds
    have hsub : ds ⊆ (holders config.threadCount.toNat).image
        fun o => (s.objects.arcs.holds o).getD 0 := fun d hd => by
      obtain ⟨o, ho⟩ := hsound.ledger.datasetLive.mp (hds d hd)
      have hmem := mem_holders hminer ((hholder o).mp (by simp [ho]))
      exact Finset.mem_image.mpr ⟨o, hmem, by rw [ho, Option.getD_some]⟩
    exact (Finset.card_le_card hsub).trans (Finset.card_image_le.trans (card_holders _))

/-- The dataset cannot be allocated, and the cache stays. -/
theorem native_objects_owned_leak : ∃ is s tr,
    Run (nativeStep worstConfig) (fun _ _ => True) (.start 1) is s tr ∧
      Owned 1 s tr ∧ CacheLive (calls tr) 0 := by
  have hexec : (exec (nativeStep worstConfig) (.start 1)
      [.miner (.publish zeroBlobJob), .miner (.read 0), .miner (.cache (.lock 0)),
        .built 0 { allThere with dataset := false }]).any
        (fun r => decide (CacheLive (calls r.2) 0)) = true := by
    decide +kernel
  obtain ⟨s, tr, hrun, htest⟩ := anyRun_of_exec_test
    (p := fun (_ : NativeMiner) (tr : List NativeObs) => decide (CacheLive (calls tr) 0)) hexec
  exact ⟨_, s, tr, hrun, native_objects_owned worstConfig hrun, of_decide_eq_true htest⟩

/-! ## What the hashes are computed with -/

/-- Only jobs with a supported algorithm are published. -/
def NativePublishesSupported (_ : NativeMiner) (i : NativeInput) : Prop :=
  ∀ job, i = .miner (.publish job) → Algorithms.isSupported job.algo = true

/-- The dataset of a worker that mines was made for its job. -/
theorem dataset_of_mining {config : MinerConfig} {is : List MinerInput} {s : MinerState}
    {tr : List MinerObs} {w : Nat} {job : Job} {vm : Vm}
    (h : Run (minerStep config) PublishesSupported (.start config.threadCount) is s tr)
    (hp : (s.workers w).phase = .mining) (hj : (s.workers w).currentJob = some job)
    (hv : (s.workers w).vm = some vm) :
    vm.dataset = { algo := job.algo, seed := seedBytesOf job.seed } := by
  have hbatch : BatchOfJob config tr w job vm (s.workers w).nonce (s.workers w).blobs _ :=
    batchOfJob_of_sound (allSound_of_run h w) hp hj hv rfl rfl
  obtain ⟨js, hcache⟩ := cacheRun_of_run h
  exact ((cacheSound_of_run hcache).returned_built (mem_cacheOf.mpr hbatch.returned)).1

/-- The native objects a batch hashed with. -/
structure HashedWith (pre : List NativeCall) (job : Job) (inputs : List Bytes) (v d c : Nat) :
    Prop where
  hashed : ∃ before, pre = before ++ inputs.map (.calculateHash v)
  live : VmLive pre v
  vm : .createVm v d ∈ pre
  liveDataset : DatasetLive pre d
  dataset : .initDataset d c ∈ pre
  /-- The cache was keyed with the seed of the job. -/
  key : .initCache c (seedBytesOf job.seed) ∈ pre

/-- The calls of a step come before its other observations. -/
theorem split_done {xs : List NativeCall} {mos : List MinerObs} {pre post : List NativeObs}
    {o : MinerObs}
    (h : xs.map NativeObs.call ++ mos.map NativeObs.miner = pre ++ .miner o :: post) :
    ∃ before after, mos = before ++ o :: after ∧
      pre = xs.map .call ++ before.map .miner := by
  rcases List.append_eq_append_iff.mp h with ⟨mid, rfl, hmos⟩ | ⟨mid, hxs, hmid⟩
  · obtain ⟨before, rest, rfl, rfl, hrest⟩ := List.map_eq_append_iff.mp hmos
    obtain ⟨o', after, rfl, ho, -⟩ := List.map_eq_cons_iff.mp hrest
    cases ho
    exact ⟨before, after, rfl, rfl⟩
  · cases mid with
    | nil =>
        have hmos : mos.map NativeObs.miner = .miner o :: post := by simpa using hmid.symm
        obtain ⟨o', after, rfl, ho, -⟩ := List.map_eq_cons_iff.mp hmos
        cases ho
        exact ⟨[], after, rfl, by simpa using hxs.symm⟩
    | cons y mid =>
        obtain ⟨rfl, -⟩ := List.cons.inj hmid
        have hmem : NativeObs.miner o ∈ xs.map NativeObs.call := by simp [hxs]
        obtain ⟨x, -, hx⟩ := List.mem_map.mp hmem
        cases hx

theorem mine_of_step {config : MinerConfig} {s s' : MinerState} {input : MinerInput}
    {os : List MinerObs} {w : Nat} {job : Job} {vm : Vm} {nonce : UInt32} {blobs : List Bytes}
    {result : Batch} (hs : minerStep config s input = some (s', os))
    (hmem : .batch w job vm nonce blobs result ∈ os) :
    input = .mine w ∧ os = [.batch w job vm nonce blobs result] := by
  cases minerMoves_of_step hs with
  | batch _ _ _ _ =>
      rw [List.mem_singleton] at hmem
      cases hmem
      exact ⟨rfl, rfl⟩
  | _ => simp at hmem

/-- A worker that mines has a VM on a dataset that was filled from a cache with the seed
of its job. -/
theorem hashedWith_of_mining {config : MinerConfig} {is : List NativeInput} {s : NativeMiner}
    {tr : List NativeObs} {w : Nat} {job : Job} {vm : Vm}
    (h : Run (nativeStep config) NativePublishesSupported (.start config.threadCount) is s tr)
    (hp : (s.miner.workers w).phase = .mining) (hj : (s.miner.workers w).currentJob = some job)
    (hv : (s.miner.workers w).vm = some vm) (inputs : List Bytes) :
    ∃ v d c, (hashBatch (.vm w) inputs s.objects).2 = inputs.map (.calculateHash v) ∧
      HashedWith (calls tr ++ inputs.map (.calculateHash v)) job inputs v d c := by
  have hsound := nativeSound_of_run h
  obtain ⟨js, hminer⟩ : ∃ js, Run (minerStep config) PublishesSupported
      (.start config.threadCount) js s.miner (tr.filterMap NativeObs.minerOf) :=
    minerRun_of_native (fun hok hi job hpublish => by
      subst hpublish
      exact hok job (toMiner_plain hi (by simp) (by simp))) h
  have hdataset := dataset_of_mining hminer hp hj hv
  have hheld : s.objects.content (.vm w) = some vm.dataset := by
    rw [hsound.same.content]
    simp [MinerState.holding, Worker.dataset, hp, hv]
  obtain ⟨v, hvm⟩ : ∃ v, s.objects.vmAt (.vm w) = some v := by
    refine Option.ne_none_iff_exists'.mp fun hnone => ?_
    have hnot := hsound.same.vms w hnone
    rw [← hsound.same.content, hheld] at hnot
    cases hnot
  obtain ⟨d, hmade, hd⟩ := hsound.ledger.vmHeld _ v hvm
  obtain ⟨d', hd', hin⟩ := Option.bind_eq_some_iff.mp hheld
  rw [hd] at hd'
  cases hd'
  obtain ⟨c, hfilled, hkey⟩ := hsound.ledger.filled d vm.dataset hin
  have hafter := hsound.ledger.append_hashes (hashes_map v inputs)
  refine ⟨v, d, c, by simp [hashBatch, hvm], ⟨_, rfl⟩, ?_, ?_, ?_, ?_, ?_⟩
  · exact hafter.vmLive.mpr ⟨_, hvm⟩
  · exact List.mem_append_left _ ((hsound.ledger.vmMade v d).mpr hmade)
  · exact hafter.datasetLive.mpr ⟨_, hd⟩
  · exact List.mem_append_left _ hfilled
  · rw [hdataset] at hkey
    exact List.mem_append_left _ hkey

/-- Every batch for a job was hashed by a live VM on a live dataset, which was filled from a
cache with the seed of the job. -/
theorem batch_hashed_natively (config : MinerConfig) {is : List NativeInput} {s : NativeMiner}
    {tr : List NativeObs}
    (h : Run (nativeStep config) NativePublishesSupported (.start config.threadCount) is s tr) :
    Justified (fun pre x => ∀ w job vm nonce blobs result,
      x = .miner (.batch w job vm nonce blobs result) →
        ∃ v d c, HashedWith (calls pre) job result.hashed v d c) tr := by
  refine h.justified ?_
  intro is s s' tr os i hrun _ hs pre x post hos w job vm nonce blobs result hx
  subst hx
  obtain ⟨input, mos, hi, hminer, -, rfl⟩ := native_of_step hs
  obtain ⟨before, after, hmos, rfl⟩ := split_done hos
  obtain ⟨rfl, hp, hj, hv, -, -⟩ := batch_of_step hminer hmos
  have hmem : MinerObs.batch w job vm nonce blobs result ∈ mos := by simp [hmos]
  obtain ⟨rfl, rfl⟩ := mine_of_step hminer hmem
  obtain rfl := toMiner_plain hi (by simp) (by simp)
  obtain ⟨v, d, c, hhashes, hwith⟩ := hashedWith_of_mining hrun hp hj hv result.hashed
  have haction : nativeAction s.miner s'.miner [.batch w job vm nonce blobs result]
      (.miner (.mine w)) = hashBatch (.vm w) result.hashed := rfl
  refine ⟨v, d, c, ?_⟩
  rw [calls_append, haction, hhashes, calls_done]
  exact hwith

def hashedBy (v : Nat) : NativeCall → Bool
  | .calculateHash v' _ => v' == v
  | _ => false

/-- The worker hashes on the first seed and then on the other one. -/
def reseededRun : List NativeInput :=
  makesVm zeroBlobJob ++ [.miner (.mine 0), .miner (.offer 0)] ++ makesVm reseededJob ++
    [.miner (.mine 0)]

theorem publishes_of_mem_reseededRun {t : NativeMiner} {i : NativeInput}
    (hi : i ∈ reseededRun) : NativePublishesSupported t i := by
  rintro job rfl
  have hjob : job = zeroBlobJob ∨ job = reseededJob := by
    simpa [reseededRun, makesVm] using hi
  rcases hjob with rfl | rfl <;> rfl

theorem batch_hashed_natively_reseeded : ∃ s tr,
    Run (nativeStep worstConfig) NativePublishesSupported (.start 1) reseededRun s tr ∧
      (calls tr).any (hashedBy 0) = true ∧ (calls tr).any (hashedBy 1) = true ∧
      Justified (fun pre x => ∀ w job vm nonce blobs result,
        x = .miner (.batch w job vm nonce blobs result) →
          ∃ v d c, HashedWith (calls pre) job result.hashed v d c) tr := by
  have hexec : (exec (nativeStep worstConfig) (.start 1) reseededRun).any (fun r =>
      (calls r.2).any (hashedBy 0) && (calls r.2).any (hashedBy 1)) = true := by
    decide +kernel
  obtain ⟨s, tr, hrun, htest⟩ := run_of_exec_test (p := fun (_ : NativeMiner)
    (tr : List NativeObs) => (calls tr).any (hashedBy 0) && (calls tr).any (hashedBy 1)) hexec
    fun _ _ hi => publishes_of_mem_reseededRun hi
  obtain ⟨hfirst, hsecond⟩ := Bool.and_eq_true_iff.mp htest
  exact ⟨s, tr, hrun, hfirst, hsecond, batch_hashed_natively worstConfig hrun⟩

end LiteXmr
