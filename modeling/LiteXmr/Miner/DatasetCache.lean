/-
LiteXmr.Miner.DatasetCache — the shared dataset cache of `miner.rs`, as a
system of threads inside `get_or_build`.

The mutex makes three things atomic: the look at the state under the lock
with everything it decides (`lock`), the store with its `notify_all`
(`store`), and going to sleep on the condvar. The build itself runs between
two of them without the lock, so other threads can look at and overwrite
the state meanwhile. A thread that waits is woken by a `notify_all`, or for
no reason (`wake`), and looks again.

A dataset is known by what it was built from. Whether RandomX can allocate
its memory is up to the environment, so a build can fail for any key.
-/
import Mathlib.Logic.Function.Basic
import LiteXmr.Lib.Bytes
import LiteXmr.Lib.Lts

namespace LiteXmr

/-! ## Datasets and virtual machines -/

structure Dataset where
  algo : String
  seed : Bytes
  deriving DecidableEq

/-- `native_bridge::randomx_apply_config`. -/
def randomxApplyConfig (algo : String) : Bool :=
  algo == "rx/0" || algo == "randomx" || algo == "randomx/0"

/-- `available` is the outcome of the header check and of the allocations. -/
def Dataset.newForAlgo (algo : String) (seed : Bytes) (available : Bool) :
    Option Dataset :=
  if randomxApplyConfig algo = false then none
  else if seed.isEmpty then none
  else if available then some { algo, seed }
  else none

structure Vm where
  dataset : Dataset
  deriving DecidableEq

def Vm.new (dataset : Dataset) (available : Bool) : Option Vm :=
  if randomxApplyConfig dataset.algo = false then none
  else if available then some { dataset }
  else none

/-! ## The cache -/

inductive DatasetState where
  | empty
  | building (seed : String)
  | ready (seed : String) (dataset : Dataset)
  | failed (seed : String)

/-- The arguments of `get_or_build`. -/
structure Request where
  algo : String
  seed : String
  seedBytes : Bytes
  deriving DecidableEq

def Request.cacheKey (req : Request) : String := req.algo ++ ":" ++ req.seed

/-- Where a thread is in `get_or_build`. -/
inductive Caller where
  | idle
  /-- About to take the lock at the head of the loop. -/
  | locking (req : Request)
  /-- In `ready.wait`. -/
  | waiting (req : Request)
  /-- The state was set to `Building`; the build runs. -/
  | building (req : Request)
  /-- The build has returned; about to take the lock and store. -/
  | storing (req : Request) (dataset : Option Dataset)
  | returned (req : Request) (dataset : Option Dataset)
  deriving DecidableEq

structure RxDatasetCache where
  state : DatasetState
  callers : Nat → Caller

def RxDatasetCache.new : RxDatasetCache := { state := .empty, callers := fun _ => .idle }

def RxDatasetCache.setCaller (cache : RxDatasetCache) (w : Nat) (caller : Caller) :
    RxDatasetCache :=
  { cache with callers := Function.update cache.callers w caller }

/-- What a thread finds under the lock. -/
inductive Look where
  | hit (dataset : Dataset)
  | failed
  | wait
  /-- The `_` arm: the thread becomes the builder of its key. -/
  | claim

def DatasetState.look (key : String) : DatasetState → Look
  | .ready seed dataset => if seed = key then .hit dataset else .claim
  | .failed seed => if seed = key then .failed else .claim
  | .building seed => if seed = key then .wait else .claim
  | .empty => .claim

/-- The state after a build of `key`. -/
def DatasetState.ofBuilt (key : String) : Option Dataset → DatasetState
  | some dataset => .ready key dataset
  | none => .failed key

/-- `notify_all` sends a waiting thread back to the lock. -/
def Caller.notify : Caller → Caller
  | .waiting req => .locking req
  | caller => caller

/-! ## Its steps -/

inductive CacheInput where
  | call (w : Nat) (req : Request)
  | lock (w : Nat)
  /-- The condvar lets a waiting thread go without a notification. -/
  | wake (w : Nat)
  | built (w : Nat) (available : Bool)
  | store (w : Nat)
  | ret (w : Nat)

inductive CacheObs where
  | building (w : Nat) (req : Request)
  | built (w : Nat) (req : Request) (dataset : Option Dataset)
  | returned (w : Nat) (req : Request) (dataset : Option Dataset)
  deriving DecidableEq

def cacheStep : Lts.Step RxDatasetCache CacheInput CacheObs
  | cache, .call w req =>
      match cache.callers w with
      | .idle => some (cache.setCaller w (.locking req), [])
      | _ => none
  | cache, .lock w =>
      match cache.callers w with
      | .locking req =>
          match cache.state.look req.cacheKey with
          | .hit dataset => some (cache.setCaller w (.returned req (some dataset)), [])
          | .failed => some (cache.setCaller w (.returned req none), [])
          | .wait => some (cache.setCaller w (.waiting req), [])
          | .claim =>
              some ({ cache.setCaller w (.building req) with
                state := .building req.cacheKey }, [.building w req])
      | _ => none
  | cache, .wake w =>
      match cache.callers w with
      | .waiting req => some (cache.setCaller w (.locking req), [])
      | _ => none
  | cache, .built w available =>
      match cache.callers w with
      | .building req =>
          let dataset := Dataset.newForAlgo req.algo req.seedBytes available
          some (cache.setCaller w (.storing req dataset), [.built w req dataset])
      | _ => none
  | cache, .store w =>
      match cache.callers w with
      | .storing req dataset =>
          some ({ state := .ofBuilt req.cacheKey dataset
                  callers := Function.update (fun v => (cache.callers v).notify) w
                    (.returned req dataset) }, [])
      | _ => none
  | cache, .ret w =>
      match cache.callers w with
      | .returned req dataset => some (cache.setCaller w .idle, [.returned w req dataset])
      | _ => none

end LiteXmr
