/-
LiteXmr.Miner.NativeMiner — the mining threads with the RandomX objects they
make, share and drop.

A dataset can be held by the cache (`DatasetState::Ready`), by a call of
`get_or_build` that has built it or got it, and by the VM of a worker. A step
here is a step of `minerStep`, and the calls of the RandomX library that it
makes; which allocations succeed is part of the input. What a step does comes
before the observation that it was done.

The cache itself is dropped with the last thread. That is left out: once a job
was published no thread ends, and before that the cache is empty.
-/
import LiteXmr.Miner.Worker
import LiteXmr.Randomx.Objects

namespace LiteXmr

open Randomx

/-! ## State -/

inductive Holder where
  | cache
  /-- In `get_or_build` or `create_randomx_vm`. -/
  | caller (w : Nat)
  | vm (w : Nat)
  deriving DecidableEq

structure NativeMiner where
  miner : MinerState
  objects : Objects Holder

def NativeMiner.start (threadCount : UInt32) : NativeMiner :=
  { miner := .start threadCount, objects := .empty }

/-! ## Steps -/

inductive NativeInput where
  | miner (input : MinerInput)
  /-- `build_full_dataset` returns. -/
  | built (w : Nat) (allocs : DatasetAllocs)
  | createVm (w : Nat) (allocs : VmAllocs)

inductive NativeObs where
  | miner (o : MinerObs)
  | call (x : NativeCall)

def NativeInput.toMiner : NativeInput → Option MinerInput
  | .miner (.cache (.built _ _)) | .miner (.createVm _ _) => none
  | .miner input => some input
  | .built w allocs => some (.cache (.built w allocs.available))
  | .createVm w allocs => some (.createVm w allocs.available)

/-- Under the lock: `dataset.clone()`, or `*state = DatasetState::Building`. -/
def lockAction (cache : RxDatasetCache) (w : Nat) : Action Holder :=
  match cache.callers w with
  | .locking req =>
      match cache.state.look req.cacheKey with
      | .hit _ => cloneArc .cache (.caller w)
      | .claim => dropArc .cache
      | .failed | .wait => .skip
  | _ => .skip

/-- `*state = DatasetState::Ready` with a clone of the dataset, or
`*state = DatasetState::Failed`. -/
def storeAction (cache : RxDatasetCache) (w : Nat) : Action Holder :=
  match cache.callers w with
  | .storing _ (some _) => (dropArc .cache).andThen (cloneArc (.caller w) .cache)
  | .storing _ none => dropArc .cache
  | _ => .skip

def buildAction (cache : RxDatasetCache) (w : Nat) (allocs : DatasetAllocs) : Action Holder :=
  match cache.callers w with
  | .building req => newForAlgo (.caller w) req.algo req.seedBytes allocs
  | _ => .skip

/-- `vm = Some(new_vm)` when there is one. -/
def keepNewVm (w : Nat) : Action Holder := fun n =>
  match n.vmAt (.caller w) with
  | some _ => replaceVm (.caller w) (.vm w) n
  | none => (n, [])

def createVmAction (cache : RxDatasetCache) (w : Nat) (allocs : VmAllocs) : Action Holder :=
  match cache.callers w with
  | .returned _ (some _) => (newVm (.caller w) allocs).andThen (keepNewVm w)
  | _ => .skip

/-- `hash_batch` for what the batch hashed. -/
def mineAction (w : Nat) (os : List MinerObs) : Action Holder :=
  match os with
  | [.batch _ _ _ _ _ result] => hashBatch (.vm w) result.hashed
  | _ => .skip

/-- A worker that ends drops its VM. -/
def exitAction (worker : Worker) (w : Nat) : Action Holder :=
  if worker.phase = .exited then dropVm (.vm w) else .skip

/-- What a step from `s` to `s'` does with the objects. -/
def nativeAction (s s' : MinerState) (os : List MinerObs) : NativeInput → Action Holder
  | .built w allocs => buildAction s.cache w allocs
  | .createVm w allocs => createVmAction s.cache w allocs
  | .miner (.cache (.lock w)) => lockAction s.cache w
  | .miner (.cache (.store w)) => storeAction s.cache w
  | .miner (.mine w) => mineAction w os
  | .miner (.changed w) => exitAction (s'.workers w) w
  | .miner _ => .skip

def nativeStep (config : MinerConfig) : Lts.Step NativeMiner NativeInput NativeObs := fun s i =>
  match i.toMiner with
  | none => none
  | some input =>
      match minerStep config s.miner input with
      | none => none
      | some (miner, os) =>
          let done := nativeAction s.miner miner os i s.objects
          some ({ miner, objects := done.1 }, done.2.map .call ++ os.map .miner)

end LiteXmr
