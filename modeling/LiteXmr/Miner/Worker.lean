/-
LiteXmr.Miner.Worker — the mining threads of `miner.rs` with the job watch
channel they read, the dataset cache they share and the queue of mined
shares they fill.

A thread's local work between two accesses to something shared is one step:
`read` is `borrow_and_update` with the adoption of the job and the choice
that follows it, `createVm` is what happens after `get_or_build` has
returned, and `mine` is one whole batch. The shares of a batch are then
offered to the queue one at a time (`offer`), so that everything else can
happen in between; `try_send` drops a share when the queue is full.

Beside its share the queue keeps the job the share was mined on. Nothing in
the program reads it; it lets statements speak about that job.
-/
import LiteXmr.Algorithms
import LiteXmr.Miner.Batch
import LiteXmr.Miner.DatasetCache

namespace LiteXmr

/-! ## The seed of a job -/

/-- `job.seed_hash.clone().unwrap_or_default()`. -/
def Job.seed (job : Job) : String := job.seedHash.getD ""

def seedBytesOf (seed : String) : Bytes :=
  match Base16.decode seed with
  | some bytes => if bytes.isEmpty then List.replicate 32 0 else bytes
  | none => List.replicate 32 0

/-- The arguments a worker calls `create_randomx_vm` with. -/
def Request.ofJob (job : Job) : Request :=
  { algo := job.algo, seed := job.seed, seedBytes := seedBytesOf job.seed }

/-! ## State -/

/-- The sender side of `watch::channel::<Option<Job>>`. -/
structure Watch where
  value : Option Job
  version : Nat
  closed : Bool

def Watch.send (watch : Watch) (job : Job) : Watch :=
  { watch with value := some job, version := watch.version + 1 }

structure Found where
  share : MinedShare
  job : Job
  deriving DecidableEq

inductive WorkerPhase where
  | head
  /-- In `block_on(job_rx.changed())`. -/
  | waitChanged
  /-- In `get_or_build`. -/
  | inCache
  | mining
  /-- The batch is hashed; these shares are still to be offered. -/
  | offering (found : List Found)
  | exited
  deriving DecidableEq

structure Worker where
  phase : WorkerPhase
  currentSeed : Option String
  currentAlgo : Option String
  vm : Option Vm
  currentJob : Option Job
  nonce : UInt32
  blobs : List Bytes
  /-- The version of the watch channel the receiver has seen. -/
  seen : Nat

def Worker.new (workerId : Nat) : Worker :=
  { phase := .head, currentSeed := none, currentAlgo := none, vm := none
    currentJob := none, nonce := UInt32.ofNat workerId
    blobs := List.replicate pipelineSize [], seen := 0 }

structure MinerState where
  watch : Watch
  cache : RxDatasetCache
  workers : Nat → Worker
  mined : List Found

def minedCapacity : Nat := 256

/-- `Miner::start`: the workers `0..thread_count` run, there are no others. -/
def MinerState.start (threadCount : UInt32) : MinerState :=
  { watch := { value := none, version := 0, closed := false }
    cache := .new
    workers := fun w =>
      if w < threadCount.toNat then .new w else { Worker.new w with phase := .exited }
    mined := [] }

def MinerState.setWorker (s : MinerState) (w : Nat) (worker : Worker) : MinerState :=
  { s with workers := Function.update s.workers w worker }

def MinerState.setCache (s : MinerState) (cache : RxDatasetCache) : MinerState :=
  { s with cache }

/-- `submit_tx.try_send(share)`, with its result. -/
def MinerState.trySend (s : MinerState) (found : Found) : MinerState × Bool :=
  if s.mined.length < minedCapacity then ({ s with mined := s.mined ++ [found] }, true)
  else (s, false)

/-! ## The head of the loop -/

/-- Read the channel; take over the job when its id differs from that of the
current one. -/
def Worker.adopt (worker : Worker) (workerId : Nat) (watch : Watch) : Worker :=
  let worker := { worker with seen := watch.version }
  if watch.value.map Job.jobId ≠ worker.currentJob.map Job.jobId then
    match watch.value with
    | none => { worker with currentJob := none, nonce := UInt32.ofNat workerId }
    | some job =>
        { worker with
          currentJob := some job, nonce := UInt32.ofNat workerId
          blobs := worker.blobs.map fun _ => job.blobBytes }
  else worker

def Worker.needsVm (worker : Worker) (job : Job) : Bool :=
  worker.currentSeed ≠ some job.seed || worker.currentAlgo ≠ some job.algo

/-! ## Steps -/

structure MinerConfig where
  /-- `randomx_calculate_hash` on a VM with this dataset. -/
  hash : Dataset → Bytes → Hash
  threadCount : UInt32

inductive MinerInput where
  /-- `job_tx.send(Some(job))`. -/
  | publish (job : Job)
  | dropSender
  | read (w : Nat)
  | changed (w : Nat)
  | cache (input : CacheInput)
  | createVm (w : Nat) (available : Bool)
  | mine (w : Nat)
  | offer (w : Nat)
  /-- `mined_shares.recv()`. -/
  | pop

inductive MinerObs where
  | published (job : Job)
  | read (w : Nat) (latest : Option Job)
  | cache (o : CacheObs)
  | vmCreated (w : Nat) (job : Job) (vm : Vm)
  /-- A call of `mine_one_batch` with the cursor and buffers it got, and what
  it did. -/
  | batch (w : Nat) (job : Job) (vm : Vm) (nonce : UInt32) (blobs : List Bytes)
      (result : Batch)
  | offered (w : Nat) (found : Found) (queued : Bool)
  | popped (found : Found)

/-- A worker calls and leaves the cache as part of its own steps. -/
def CacheInput.isInternal : CacheInput → Bool
  | .call _ _ | .ret _ => false
  | _ => true

def minerStep (config : MinerConfig) : Lts.Step MinerState MinerInput MinerObs
  | s, .publish job =>
      if s.watch.closed then none
      else some ({ s with watch := s.watch.send job }, [.published job])
  | s, .dropSender => some ({ s with watch := { s.watch with closed := true } }, [])
  | s, .read w =>
      match (s.workers w).phase with
      | .head =>
          let worker := (s.workers w).adopt w s.watch
          match worker.currentJob with
          | none =>
              some (s.setWorker w { worker with phase := .waitChanged },
                [.read w s.watch.value])
          | some job =>
              if worker.needsVm job then
                match cacheStep s.cache (.call w (.ofJob job)) with
                | some (cache, os) =>
                    some ((s.setWorker w { worker with phase := .inCache }).setCache cache,
                      .read w s.watch.value :: os.map .cache)
                | none => none
              else
                some (s.setWorker w { worker with phase := .mining },
                  [.read w s.watch.value])
      | _ => none
  | s, .changed w =>
      match (s.workers w).phase with
      | .waitChanged =>
          let worker := s.workers w
          if s.watch.version ≠ worker.seen then
            some (s.setWorker w { worker with phase := .head, seen := s.watch.version }, [])
          else if s.watch.closed then
            some (s.setWorker w { worker with phase := .exited }, [])
          else none
      | _ => none
  | s, .cache input =>
      if input.isInternal then
        match cacheStep s.cache input with
        | some (cache, os) => some (s.setCache cache, os.map .cache)
        | none => none
      else none
  | s, .createVm w available =>
      let worker := s.workers w
      match worker.phase, worker.currentJob, s.cache.callers w,
          cacheStep s.cache (.ret w) with
      | .inCache, some job, .returned _ dataset, some (cache, os) =>
          match dataset.bind fun dataset => Vm.new dataset available with
          | some vm =>
              some ((s.setWorker w
                  { worker with
                    phase := .mining, vm := some vm
                    currentSeed := some job.seed, currentAlgo := some job.algo }).setCache
                  cache,
                os.map .cache ++ [.vmCreated w job vm])
          | none =>
              some ((s.setWorker w { worker with phase := .head }).setCache cache,
                os.map .cache)
      | _, _, _, _ => none
  | s, .mine w =>
      let worker := s.workers w
      match worker.phase, worker.currentJob, worker.vm with
      | .mining, some job, some vm =>
          let batch := mineOneBatch (config.hash vm.dataset) job config.threadCount
            worker.nonce worker.blobs
          some (s.setWorker w
              { worker with
                phase := .offering (batch.shares.map fun share => { share, job })
                nonce := batch.nonce, blobs := batch.blobs },
            [.batch w job vm worker.nonce worker.blobs batch])
      | .mining, _, _ => some (s.setWorker w { worker with phase := .head }, [])
      | _, _, _ => none
  | s, .offer w =>
      let worker := s.workers w
      match worker.phase with
      | .offering [] => some (s.setWorker w { worker with phase := .head }, [])
      | .offering (found :: rest) =>
          let sent := (s.setWorker w { worker with phase := .offering rest }).trySend found
          some (sent.1, [.offered w found sent.2])
      | _ => none
  | s, .pop =>
      match s.mined with
      | [] => none
      | found :: rest => some ({ s with mined := rest }, [.popped found])

end LiteXmr
