/-
LiteXmr.Miner.Benchmark — `run_benchmark` of `miner.rs`.

Each thread makes a VM, reports that it is ready and spins until it sees
`start` or `stop`; from then on it hashes batches of sixteen blobs until it
sees `stop`. The caller waits until as many threads are ready as it has
spawned, sets `start`, sleeps, sets `stop`, joins the threads one after the
other and reads the count. A thread whose VM cannot be made returns without
having reported.

Every access to a flag or a counter is one step. The rate that is computed of
the count and of the measured time is a matter of floating point and is left
out; the result here is the count.
-/
import LiteXmr.Miner.Batch
import LiteXmr.Miner.DatasetCache

namespace LiteXmr

/-! ## State -/

inductive BenchPhase where
  | starting
  /-- The VM is made and not yet reported. -/
  | created
  | spinning
  /-- At the head of `while !stop.load(..)`. -/
  | looping
  | hashing
  | adding
  | exited
  deriving DecidableEq

structure BenchWorker where
  phase : BenchPhase
  vm : Option Vm
  nonce : UInt32
  blobs : List Bytes

/-- The place of the caller. -/
inductive BenchMain where
  | waiting
  | sleeping
  | joining (next : Nat)
  | finished (hashes : UInt64)

structure Benchmark where
  dataset : Dataset
  start : Bool
  stop : Bool
  readyWorkers : Nat
  totalHashes : UInt64
  workers : Nat → BenchWorker
  main : BenchMain

def BenchWorker.new (workerId : Nat) : BenchWorker :=
  { phase := .starting, vm := none, nonce := UInt32.ofNat workerId
    blobs := List.replicate pipelineSize (List.replicate 76 0) }

/-- `thread_count.max(1)`. -/
def benchThreads (threadCount : UInt32) : Nat := max threadCount.toNat 1

/-- The threads are spawned, unless there is no dataset. -/
def Benchmark.new (available : Bool) : Option Benchmark :=
  (Dataset.newForAlgo "rx/0" (List.replicate 32 0) available).map fun dataset =>
    { dataset, start := false, stop := false, readyWorkers := 0, totalHashes := 0
      workers := .new, main := .waiting }

def Benchmark.setWorker (s : Benchmark) (w : Nat) (worker : BenchWorker) : Benchmark :=
  { s with workers := Function.update s.workers w worker }

/-! ## Steps -/

inductive BenchInput where
  | createVm (w : Nat) (available : Bool)
  | report (w : Nat)
  | spin (w : Nat)
  | check (w : Nat)
  | hash (w : Nat)
  | add (w : Nat)
  /-- The caller looks at `ready_workers`. -/
  | poll
  /-- The sleep is over. -/
  | wake
  /-- `handle.join()`, and the end of the loop over the handles. -/
  | join

inductive BenchObs where
  | vmCreated (w : Nat) (vm : Vm)
  | reported (w : Nat)
  | started
  | hashed (w : Nat) (vm : Vm) (inputs : List Bytes)
  | stopped

/-- The nonces of a batch, written over those of the last one. -/
def fillBlobs (threadCount : UInt32) : UInt32 → List Bytes → List Bytes × UInt32
  | nonce, [] => ([], nonce)
  | nonce, blob :: blobs =>
      let rest := fillBlobs threadCount (nonce + threadCount) blobs
      (Bytes.overwrite blob nonceOffset (u32ToLe nonce) :: rest.1, rest.2)

def benchStep (threadCount : UInt32) : Lts.Step Benchmark BenchInput BenchObs
  | s, .createVm w available =>
      let worker := s.workers w
      if w < benchThreads threadCount ∧ worker.phase = .starting then
        match Vm.new s.dataset available with
        | some vm =>
            some (s.setWorker w { worker with phase := .created, vm := some vm },
              [.vmCreated w vm])
        | none => some (s.setWorker w { worker with phase := .exited }, [])
      else none
  | s, .report w =>
      let worker := s.workers w
      if worker.phase = .created then
        some ({ s.setWorker w { worker with phase := .spinning } with
          readyWorkers := s.readyWorkers + 1 }, [.reported w])
      else none
  | s, .spin w =>
      let worker := s.workers w
      if worker.phase = .spinning ∧ (s.start = true ∨ s.stop = true) then
        some (s.setWorker w { worker with phase := .looping }, [])
      else none
  | s, .check w =>
      let worker := s.workers w
      if worker.phase = .looping then
        some (s.setWorker w { worker with phase := if s.stop then .exited else .hashing }, [])
      else none
  | s, .hash w =>
      let worker := s.workers w
      match worker.phase, worker.vm with
      | .hashing, some vm =>
          let filled := fillBlobs (UInt32.ofNat (benchThreads threadCount)) worker.nonce
            worker.blobs
          some (s.setWorker w
            { worker with phase := .adding, blobs := filled.1, nonce := filled.2 },
            [.hashed w vm filled.1])
      | _, _ => none
  | s, .add w =>
      let worker := s.workers w
      if worker.phase = .adding then
        some ({ s.setWorker w { worker with phase := .looping } with
          totalHashes := s.totalHashes + 16 }, [])
      else none
  | s, .poll =>
      match s.main with
      | .waiting =>
          if s.readyWorkers < benchThreads threadCount then none
          else some ({ s with start := true, main := .sleeping }, [.started])
      | _ => none
  | s, .wake =>
      match s.main with
      | .sleeping => some ({ s with stop := true, main := .joining 0 }, [.stopped])
      | _ => none
  | s, .join =>
      match s.main with
      | .joining next =>
          if next < benchThreads threadCount then
            if (s.workers next).phase = .exited then
              some ({ s with main := .joining (next + 1) }, [])
            else none
          else some ({ s with main := .finished s.totalHashes }, [])
      | _ => none

end LiteXmr
