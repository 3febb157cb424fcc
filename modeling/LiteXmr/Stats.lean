/-
LiteXmr.Stats — the hash counter of `stats.rs`, as the threads use it.

`record_hashes` adds to an atomic counter, reads the clock, and then takes the
lock of the last sample. In between the other threads do the same, so a thread
can come to the lock with a time that lies before the last sample. The first
sample only marks the start; after that a sample is taken when a second has gone
by, and gives a rate. What is done under the lock is one step: the sample
is only looked at there, and the load of the counter decides what is seen of it.

Times are nanoseconds of the monotonic clock. The rate is computed with
floating point numbers from the hashes and the time; it is a parameter.
-/
import Mathlib.Logic.Function.Basic
import LiteXmr.Lib.Lts

namespace LiteXmr

/-! ## State -/

structure Sample where
  time : Nat
  hashes : UInt64
  deriving DecidableEq

structure MiningStats where
  totalHashes : UInt64
  lastSample : Sample
  currentHashrate : UInt64

def MiningStats.new (now : Nat) : MiningStats :=
  { totalHashes := 0, lastSample := { time := now, hashes := 0 }, currentHashrate := 0 }

/-- Where a thread is in `record_hashes`. -/
inductive Recorder where
  | idle
  | added
  /-- It has read the clock. -/
  | timed (now : Nat)
  deriving DecidableEq

structure Recording where
  stats : MiningStats
  clock : Nat
  recorders : Nat → Recorder

def Recording.start (clock : Nat) : Recording :=
  { stats := .new clock, clock, recorders := fun _ => .idle }

def Recording.setRecorder (s : Recording) (w : Nat) (recorder : Recorder) : Recording :=
  { s with recorders := Function.update s.recorders w recorder }

/-! ## Steps -/

inductive RecordInput where
  /-- `record_hashes(count)` is called: `total_hashes.fetch_add(count)`. -/
  | add (w : Nat) (count : UInt64)
  /-- `Instant::now()`. -/
  | now (w : Nat)
  | lock (w : Nat)
  | tick (elapsed : Nat)

inductive RecordObs where
  | added (w : Nat) (count : UInt64)
  | first (sample : Sample)
  | window (before after : Sample) (hashrate : UInt64)

def nanosPerSec : Nat := 1000000000

/-- What `record_hashes` does under the lock. `duration_since` of a later time is zero. -/
def MiningStats.sample (rate : UInt64 → Nat → UInt64) (stats : MiningStats) (now : Nat) :
    MiningStats × List RecordObs :=
  if stats.lastSample.hashes = 0 then
    let first := { time := now, hashes := stats.totalHashes }
    ({ stats with lastSample := first }, [.first first])
  else
    let elapsed := now - stats.lastSample.time
    if nanosPerSec ≤ elapsed then
      let current := stats.totalHashes
      let hashrate := rate (current - stats.lastSample.hashes) elapsed
      let after := { time := now, hashes := current }
      ({ stats with currentHashrate := hashrate, lastSample := after },
        [.window stats.lastSample after hashrate])
    else (stats, [])

def recordStep (rate : UInt64 → Nat → UInt64) : Lts.Step Recording RecordInput RecordObs
  | s, .add w count =>
      match s.recorders w with
      | .idle =>
          some ({ s.setRecorder w .added with
            stats := { s.stats with totalHashes := s.stats.totalHashes + count } },
            [.added w count])
      | _ => none
  | s, .now w =>
      match s.recorders w with
      | .added => some (s.setRecorder w (.timed s.clock), [])
      | _ => none
  | s, .lock w =>
      match s.recorders w with
      | .timed now =>
          let sampled := s.stats.sample rate now
          some ({ s.setRecorder w .idle with stats := sampled.1 }, sampled.2)
      | _ => none
  | s, .tick elapsed => some ({ s with clock := s.clock + elapsed }, [])

end LiteXmr
