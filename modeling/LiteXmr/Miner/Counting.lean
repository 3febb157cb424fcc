/-
LiteXmr.Miner.Counting — the mining threads with the hash counter they report to.

In `Worker` a batch is one step. Here its rounds are taken one by one: a round fills
and hashes its buffers (`round`), then it calls `record_hashes`, and only when that
has returned the next one begins. Meanwhile the other threads hash and record. The
step of the threads that stands for the whole batch is made when the loop is left, so
what it does is what the rounds have done (`Rounds.result`).
-/
import LiteXmr.Miner.Worker
import LiteXmr.Stats

namespace LiteXmr

/-! ## The loop of a batch -/

/-- A worker in the loop of `mine_one_batch`. -/
structure Rounds where
  remaining : Nat
  /-- What the rounds up to now come to. -/
  done : Batch
  /-- The round is hashed; the argument of its call of `record_hashes`. -/
  unrecorded : Option Nat

namespace Rounds

def start (worker : Worker) : Rounds :=
  { remaining := batchSize
    done :=
      { nonce := worker.nonce, blobs := worker.blobs, hashed := [], shares := []
        exhausted := false }
    unrecorded := none }

/-- The loop is left, by its condition or by the return inside. -/
def ended (rounds : Rounds) : Bool := rounds.remaining == 0 || rounds.done.exhausted

section

variable (hash : Bytes → Hash) (job : Job) (threadCount : UInt32)

def round (rounds : Rounds) : Batch :=
  mineRound hash job threadCount (min rounds.remaining pipelineSize) rounds.done.nonce
    rounds.done.blobs

/-- After one pass, up to the call of `record_hashes`. -/
def next (rounds : Rounds) : Rounds :=
  let round := rounds.round hash job threadCount
  let count := min rounds.remaining pipelineSize
  { remaining := rounds.remaining - count
    done := rounds.done.append round
    unrecorded := if round.exhausted then none else some count }

end

end Rounds

/-! ## The threads and the counter -/

structure CountingMiner where
  miner : MinerState
  recording : Recording
  /-- The loop a worker is in. -/
  rounds : Nat → Option Rounds

inductive CountingInput where
  | round (w : Nat)
  | miner (input : MinerInput)
  | record (input : RecordInput)

inductive CountingObs where
  /-- The blobs of one round. -/
  | hashed (w : Nat) (inputs : List Bytes)
  | miner (o : MinerObs)
  | record (o : RecordObs)

namespace CountingMiner

def start (threadCount : UInt32) (clock : Nat) : CountingMiner :=
  { miner := .start threadCount, recording := .start clock, rounds := fun _ => none }

def setRounds (s : CountingMiner) (w : Nat) (rounds : Option Rounds) : CountingMiner :=
  { s with rounds := Function.update s.rounds w rounds }

/-- The loop of worker `w`, which begins when there is none. -/
def loop (s : CountingMiner) (w : Nat) : Rounds :=
  (s.rounds w).getD (.start (s.miner.workers w))

/-- Worker `w` is not inside `record_hashes`, nor about to call it. -/
def recorded (s : CountingMiner) (w : Nat) : Bool :=
  (s.loop w).unrecorded.isNone && s.recording.recorders w = .idle

/-- The batch of a worker is a step of the threads when its loop is over. -/
def allows (s : CountingMiner) : MinerInput → Bool
  | .mine w =>
      match (s.miner.workers w).currentJob, (s.miner.workers w).vm with
      | some _, some _ => (s.loop w).ended && s.recorded w
      | _, _ => true
  | _ => true

/-- With a step of the threads a loop may be left. -/
def leave (s : CountingMiner) : MinerInput → CountingMiner
  | .mine w => s.setRounds w none
  | _ => s

/-- A step of `record_hashes`, if it can be called so. -/
def record (s : CountingMiner) : RecordInput → Option CountingMiner
  | .add w count =>
      match s.rounds w with
      | some rounds =>
          match rounds.unrecorded with
          | some hashes =>
              if count = UInt64.ofNat hashes then
                some (s.setRounds w (some { rounds with unrecorded := none }))
              else none
          | none => none
      | none => none
  | _ => some s

end CountingMiner

def countingStep (config : MinerConfig) (rate : UInt64 → Nat → UInt64) :
    Lts.Step CountingMiner CountingInput CountingObs
  | s, .round w =>
      let worker := s.miner.workers w
      match worker.phase, worker.currentJob, worker.vm with
      | .mining, some job, some vm =>
          let loop := s.loop w
          if loop.ended then none
          else if s.recorded w then
            let hash := config.hash vm.dataset
            some (s.setRounds w (some (loop.next hash job config.threadCount)),
              [.hashed w (loop.round hash job config.threadCount).hashed])
          else none
      | _, _, _ => none
  | s, .miner input =>
      if s.allows input then
        match minerStep config s.miner input with
        | some (miner, os) => some ({ s.leave input with miner }, os.map .miner)
        | none => none
      else none
  | s, .record input =>
      match s.record input, recordStep rate s.recording input with
      | some s, some (recording, os) => some ({ s with recording }, os.map .record)
      | _, _ => none

end LiteXmr
