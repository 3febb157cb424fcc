/-
LiteXmr.Miner.Batch — one call of `mine_one_batch` (`miner.rs`).

A batch runs pipeline rounds until 1024 slots are used up. A round writes
the next nonce into each of up to sixteen buffers, hashes the buffers and
queues a share for every hash below the difficulty. A cursor above the
nonce mask ends the batch at once, in the middle of a round as well: the
slots already written in that round are not hashed.

The hash is a parameter: `randomx_calculate_hash` on the worker's VM. What a
batch queues is the list of calls of `try_send`, in order; whether the
channel has room for them is decided by the system the batch runs in.
-/
import LiteXmr.Job.Job

namespace LiteXmr

/-! ## The share test -/

def hashSize : Nat := 32

/-- The output of one hash, `[u8; HASH_SIZE]`. -/
def Hash : Type := { bytes : Bytes // bytes.length = hashSize }

def checkHashDifficulty (hash : Bytes) (targetDifficulty : UInt64) : Bool :=
  if hash.length < 32 ∨ targetDifficulty = 0 then false
  else
    let hashVal := UInt64.ofNat (Bytes.natOfLe (Bytes.window hash 24 8))
    hashVal < u64Max / targetDifficulty

structure MinedShare where
  jobId : String
  nonce : String
  result : String
  blob : String
  deriving DecidableEq, Repr

/-! ## One pipeline round -/

def batchSize : Nat := 1024

def pipelineSize : Nat := 16

/-- Write the cursor into one buffer. A buffer too short for the nonce
field is left as it is and its entry of `nonces` stays zero. -/
def fillSlot (mask nonce : UInt32) (blob : Bytes) : Bytes × UInt32 :=
  if nonceOffset + 4 ≤ blob.length then
    match writeNonce blob nonce mask with
    | some written => written
    | none => (blob, 0)
  else (blob, 0)

structure Fill where
  nonce : UInt32
  blobs : List Bytes
  nonces : List UInt32
  /-- The cursor was above the mask: the batch sleeps and returns. -/
  exhausted : Bool

/-- The `for i in 0..count` loop over the buffers of a round. -/
def fillPipeline (mask threadCount : UInt32) : UInt32 → List Bytes → Fill
  | nonce, [] => { nonce, blobs := [], nonces := [], exhausted := false }
  | nonce, blob :: blobs =>
      if nonce > mask then
        { nonce, blobs := blob :: blobs, nonces := [], exhausted := true }
      else
        let slot := fillSlot mask nonce blob
        let rest := fillPipeline mask threadCount (nonce + threadCount) blobs
        { rest with blobs := slot.1 :: rest.blobs, nonces := slot.2 :: rest.nonces }

def shareOf (hash : Bytes → Hash) (job : Job) (slot : Bytes × UInt32) : Option MinedShare :=
  let result := (hash slot.1).val
  if checkHashDifficulty result job.difficulty then
    some { jobId := job.jobId, nonce := formatNonce slot.2
           result := Base16.encode result, blob := Base16.encode slot.1 }
  else none

/-! ## The batch -/

/-- What a batch leaves behind: the worker's cursor and buffers, the inputs
it hashed and the shares it queued, both in order. -/
structure Batch where
  nonce : UInt32
  blobs : List Bytes
  hashed : List Bytes
  shares : List MinedShare
  exhausted : Bool

/-- One piece of work after another. -/
def Batch.append (first second : Batch) : Batch :=
  { second with
    hashed := first.hashed ++ second.hashed
    shares := first.shares ++ second.shares }

section

variable (hash : Bytes → Hash) (job : Job) (threadCount : UInt32)

/-- One pass of the `while` body: a full pipeline goes through `hash_batch`,
a shorter one through `hash_one`, and both hash the filled buffers in
order. -/
def mineRound (count : Nat) (nonce : UInt32) (blobs : List Bytes) : Batch :=
  let fill := fillPipeline job.nonceMask threadCount nonce (blobs.take count)
  let blobs' := fill.blobs ++ blobs.drop count
  if fill.exhausted then
    { nonce := fill.nonce, blobs := blobs', hashed := [], shares := [], exhausted := true }
  else
    { nonce := fill.nonce, blobs := blobs', hashed := fill.blobs
      shares := (fill.blobs.zip fill.nonces).filterMap (shareOf hash job)
      exhausted := false }

/-- The `while remaining > 0` loop. Every pass uses up at least one slot, so
`remaining` passes are enough (`mineRounds_fuel`). -/
def mineRounds : Nat → Nat → UInt32 → List Bytes → Batch
  | 0, _, nonce, blobs =>
      { nonce, blobs, hashed := [], shares := [], exhausted := false }
  | fuel + 1, remaining, nonce, blobs =>
      if remaining = 0 then
        { nonce, blobs, hashed := [], shares := [], exhausted := false }
      else
        let count := min remaining pipelineSize
        let round := mineRound hash job threadCount count nonce blobs
        if round.exhausted then round
        else round.append (mineRounds fuel (remaining - count) round.nonce round.blobs)

def mineOneBatch (nonce : UInt32) (blobs : List Bytes) : Batch :=
  mineRounds hash job threadCount batchSize batchSize nonce blobs

/-- `n` batches on the same job, one after another. -/
def mineBatches : Nat → UInt32 → List Bytes → Batch
  | 0, nonce, blobs => { nonce, blobs, hashed := [], shares := [], exhausted := false }
  | n + 1, nonce, blobs =>
      let batch := mineOneBatch hash job threadCount nonce blobs
      batch.append (mineBatches n batch.nonce batch.blobs)

end

/-- The sixteen buffers after the template copy of `worker_loop_sync`. -/
def templateBuffers (job : Job) : List Bytes := List.replicate pipelineSize job.blobBytes

end LiteXmr
