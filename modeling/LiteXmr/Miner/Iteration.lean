/-
LiteXmr.Miner.Iteration — the iterations of `worker_loop_sync`, watched.

An iteration begins when a worker reads the channel and ends when the worker is
back at the head of its loop. It is worth something when the worker has hashed a
buffer, has slept because its nonces are used up, or has waited: for a new job, for
the build of a dataset by another thread, or for its own. `Watched` keeps for every
worker whether this has happened since its last read, and `watchStep` shows an
iteration that ends with a job. Nothing in the program reads either.
-/
import LiteXmr.Miner.Worker

namespace LiteXmr

structure Watched where
  miner : MinerState
  /-- The worker has hashed, slept or waited since its last read. -/
  progressed : Nat → Bool

def Watched.start (threadCount : UInt32) : Watched :=
  { miner := .start threadCount, progressed := fun _ => false }

/-- An iteration that is over. -/
structure Iteration where
  worker : Nat
  job : Job
  progressed : Bool
  deriving DecidableEq

/-- Under the lock, a thread goes to sleep on the condvar or begins a build. -/
def RxDatasetCache.blocks (cache : RxDatasetCache) (w : Nat) : Bool :=
  match cache.callers w with
  | .locking req =>
      match cache.state.look req.cacheKey with
      | .wait | .claim => true
      | .hit _ | .failed => false
  | _ => false

/-- A batch that has hashed something, or slept. -/
def Batch.worked (batch : Batch) : Bool := !batch.hashed.isEmpty || batch.exhausted

def MinerObs.worked : MinerObs → Bool
  | .batch _ _ _ _ _ result => result.worked
  | _ => false

def progressAfter (s : Watched) (os : List MinerObs) : MinerInput → Nat → Bool
  | .read w => Function.update s.progressed w false
  | .changed w => Function.update s.progressed w true
  | .cache (.lock w) =>
      Function.update s.progressed w (s.progressed w || s.miner.cache.blocks w)
  | .mine w => Function.update s.progressed w (s.progressed w || os.any MinerObs.worked)
  | _ => s.progressed

/-- The worker whose loop an input moves. -/
def MinerInput.worker : MinerInput → Option Nat
  | .read w | .changed w | .createVm w _ | .mine w | .offer w => some w
  | _ => none

/-- The job of a worker that has come back to the head of its loop. -/
def endedJob (s s' : MinerState) (w : Nat) : Option Job :=
  if (s.workers w).phase ≠ .head ∧ (s'.workers w).phase = .head then (s'.workers w).currentJob
  else none

def iterationsOf (s : MinerState) (s' : Watched) (i : MinerInput) : List Iteration :=
  (i.worker.bind fun w => (endedJob s s'.miner w).map fun job =>
    { worker := w, job, progressed := s'.progressed w }).toList

def watchStep (config : MinerConfig) : Lts.Step Watched MinerInput Iteration
  | s, i =>
      match minerStep config s.miner i with
      | none => none
      | some (miner, os) =>
          let s' : Watched := { miner, progressed := progressAfter s os i }
          some (s', iterationsOf s.miner s' i)

/-- The worker gives up an iteration in which nothing has happened yet: it finds that the
build for its key has failed before, or it has found the dataset and cannot make the VM. -/
def Watched.givesUp (s : Watched) : MinerInput → Bool
  | .cache (.lock w) =>
      match s.miner.cache.callers w with
      | .locking req =>
          match s.miner.cache.state.look req.cacheKey with
          | .failed => !s.progressed w
          | _ => false
      | _ => false
  | .createVm w available =>
      match s.miner.cache.callers w with
      | .returned _ (some dataset) => (Vm.new dataset available).isNone && !s.progressed w
      | _ => false
  | _ => false

end LiteXmr
