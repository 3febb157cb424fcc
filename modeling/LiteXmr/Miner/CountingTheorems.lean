/-
LiteXmr.Miner.CountingTheorems — the counter of `stats.rs` counts what is hashed.

A worker's loop makes the batch that `mine_one_batch` is in the model of the threads
(`result_start`, `result_next`, `result_of_ended`), so `InLoop` may be assumed of every
loop. Over a run the hashes of the rounds are on the counter or belong to a round that
is not recorded yet (`Counting.counts`), and they are those of the batches that are
over and of the loops that are not (`Counting.batches`). So the counter never tells
too much, is behind by a round for each thread at most, and is exact when no thread is
in the loop (`hashes_counted`).
-/
import Mathlib.Algebra.BigOperators.Group.Finset.Basic
import Mathlib.Algebra.Order.BigOperators.Group.Finset
import LiteXmr.Miner.Counting
import LiteXmr.Miner.DuplicateSharesTheorems
import LiteXmr.Miner.IterationTheorems
import LiteXmr.Miner.ProgressTheorems
import LiteXmr.StatsTheorems

namespace LiteXmr

open Lts

/-! ## The rounds of a batch -/

section Rounds

variable (hash : Bytes → Hash) (job : Job) (T : UInt32)

theorem length_mineRound_blobs (count : Nat) (nonce : UInt32) (blobs : List Bytes) :
    (mineRound hash job T count nonce blobs).blobs.length = blobs.length := by
  have hlength : ((fillPipeline job.nonceMask T nonce (blobs.take count)).blobs ++
      blobs.drop count).length = blobs.length := by
    rw [List.length_append, length_fillPipeline, ← List.length_append, List.take_append_drop]
  simp only [mineRound]
  split
  · exact hlength
  · exact hlength

/-- A round that is cut short has hashed nothing. -/
theorem mineRound_exhausted {count : Nat} {nonce : UInt32} {blobs : List Bytes}
    (hround : (mineRound hash job T count nonce blobs).exhausted = true) :
    (mineRound hash job T count nonce blobs).hashed = [] := by
  simp only [mineRound] at hround ⊢
  split
  · rfl
  · next hgo =>
      rw [if_neg hgo] at hround
      cases hround

namespace Rounds

/-- What the loop has still to do. -/
def rest (rounds : Rounds) : Batch :=
  if rounds.done.exhausted then { rounds.done with hashed := [], shares := [] }
  else mineRounds hash job T rounds.remaining rounds.remaining rounds.done.nonce rounds.done.blobs

/-- The batch that the loop makes. -/
def result (rounds : Rounds) : Batch := rounds.done.append (rounds.rest hash job T)

theorem result_start (worker : Worker) :
    (start worker).result hash job T = mineOneBatch hash job T worker.nonce worker.blobs := by
  simp [result, rest, start, Batch.append, mineOneBatch]

theorem result_of_ended {rounds : Rounds} (h : rounds.ended = true) :
    rounds.result hash job T = rounds.done := by
  by_cases hexhausted : rounds.done.exhausted = true
  · rw [result, rest, if_pos hexhausted]
    simp [Batch.append]
  · have hremaining : rounds.remaining = 0 := by simpa [ended, hexhausted] using h
    have hgo : rounds.done.exhausted = false := Bool.eq_false_iff.mpr hexhausted
    simp [result, rest, hremaining, mineRounds, Batch.append, ← hgo]

/-- A round is a part of the batch. -/
theorem result_next {rounds : Rounds} (h : rounds.ended = false) :
    (rounds.next hash job T).result hash job T = rounds.result hash job T := by
  obtain ⟨hremaining, hgo⟩ : rounds.remaining ≠ 0 ∧ rounds.done.exhausted = false := by
    simpa [ended] using h
  obtain ⟨fuel, hfuel⟩ := Nat.exists_eq_succ_of_ne_zero hremaining
  have hrest : rounds.rest hash job T = if (rounds.round hash job T).exhausted then
      rounds.round hash job T else (rounds.round hash job T).append
        (mineRounds hash job T fuel (rounds.remaining - min rounds.remaining pipelineSize)
          (rounds.round hash job T).nonce (rounds.round hash job T).blobs) := by
    rw [rest, hgo, hfuel, if_neg Bool.false_ne_true, mineRounds, if_neg (Nat.succ_ne_zero fuel),
      ← hfuel]
    rfl
  have hless : rounds.remaining - min rounds.remaining pipelineSize ≤ fuel := by
    have hpos : 0 < min rounds.remaining pipelineSize := by
      rw [pipelineSize]
      omega
    omega
  rw [result, result, hrest]
  by_cases hround : (rounds.round hash job T).exhausted = true
  · rw [if_pos hround]
    simp only [next, rest, Batch.append, hround, if_true, List.append_nil]
  · rw [if_neg hround]
    simp only [next, rest, Batch.append, if_neg hround, List.append_assoc]
    rw [mineRounds_fuel hash job T _ fuel _ _ _ (Nat.le_refl _) hless]

/-- A round that is to be recorded has hashed that many blobs. -/
theorem unrecorded_next {rounds : Rounds} (hblobs : rounds.done.blobs.length = pipelineSize) :
    (rounds.next hash job T).unrecorded.getD 0 = (rounds.round hash job T).hashed.length := by
  by_cases hround : (rounds.round hash job T).exhausted = true
  · simp only [next, hround, if_true, Option.getD_none]
    rw [Rounds.round, mineRound_exhausted hash job T hround]
    rfl
  · have hlength := length_mineRound hash job T _ rounds.done.nonce rounds.done.blobs
      (Bool.eq_false_iff.mpr hround)
    have hcount : min rounds.remaining pipelineSize ≤ rounds.done.blobs.length := by
      rw [hblobs]
      exact Nat.min_le_right _ _
    simp only [next, hround, Bool.false_eq_true, if_false, Option.getD_some]
    rw [Rounds.round, hlength, List.length_take, Nat.min_eq_left hcount]

end Rounds

end Rounds

/-! ## A step of the threads -/

section

variable {config : MinerConfig} {s s' : MinerState} {i : MinerInput} {os : List MinerObs} {v : Nat}

theorem hashCount_append (tr os : List MinerObs) :
    hashCount v (tr ++ os) = hashCount v tr + hashCount v os := by
  induction tr with
  | nil => simp [hashCount]
  | cons o tr ih => simp [hashCount, ih, Nat.add_assoc]

theorem hashCount_of_silent (h : Silent v os) : hashCount v os = 0 := by
  induction os with
  | nil => rfl
  | cons o os ih =>
      obtain ⟨ho, hos⟩ := List.forall_mem_cons.mp h
      rw [hashCount, ho.2, ih hos]

/-- Only in its batch a worker hashes. -/
theorem hashCount_of_step (hi : i ≠ .mine v) (hs : minerStep config s i = some (s', os)) :
    hashCount v os = 0 := by
  cases minerMoves_of_step hs with
  | readNewVm _ _ _ =>
      rw [hashCount, hashCount_of_silent (silent_cache v _)]
      rfl
  | cache _ _ => exact hashCount_of_silent (silent_cache v _)
  | newVm _ _ _ _ _ =>
      rw [hashCount_append, hashCount_of_silent (silent_cache v _)]
      rfl
  | noVm _ _ _ => exact hashCount_of_silent (silent_cache v _)
  | @batch w job vm batch _ _ _ _ =>
      have hw : w ≠ v := fun heq => hi (by rw [heq])
      simp [hashCount, MinerObs.hashes, hw]
  | _ => rfl

/-- Nobody else touches a worker that mines. -/
theorem worker_of_mining (hp : (s.workers v).phase = .mining) (hi : i ≠ .mine v)
    (hs : minerStep config s i = some (s', os)) : s'.workers v = s.workers v := by
  have hother : ∀ {w : Nat} {worker : Worker} {phase : WorkerPhase},
      (s.workers w).phase = phase → phase ≠ .mining →
      (s.setWorker w worker).workers v = s.workers v := by
    intro w worker phase hw hphase
    refine MinerState.setWorker_of_ne fun heq => hphase ?_
    rw [← hw, ← heq, hp]
  have hmined : ∀ {w : Nat} {worker : Worker}, i = .mine w →
      (s.setWorker w worker).workers v = s.workers v := by
    intro w worker heq
    refine MinerState.setWorker_of_ne fun hvw => hi ?_
    rw [hvw, heq]
  cases minerMoves_of_step hs with
  | publish _ | dropSender | cache _ _ | pop _ => rfl
  | readNone hw _ | readNewVm hw _ _ | readSameVm hw _ _ => exact hother hw (by simp)
  | changed hw _ | exit hw _ => exact hother hw (by simp)
  | newVm hw _ _ _ _ | noVm hw _ _ => exact hother hw (by simp)
  | batch _ _ _ _ | noBatch _ => exact hmined rfl
  | offered hw => exact hother hw (by simp)
  | offer hw hsent =>
      subst hsent
      rw [MinerState.trySend_workers]
      exact hother hw (by simp)

/-- A worker with a job and a VM mines its batch. -/
theorem batch_of_mine {job : Job} {vm : Vm} (hj : (s.workers v).currentJob = some job)
    (hv : (s.workers v).vm = some vm) (hs : minerStep config s (.mine v) = some (s', os)) :
    hashCount v os = (mineOneBatch (config.hash vm.dataset) job config.threadCount
      (s.workers v).nonce (s.workers v).blobs).hashed.length := by
  cases hp : (s.workers v).phase with
  | mining =>
      simp only [minerStep, hp, hj, hv, Option.some.injEq, Prod.mk.injEq] at hs
      obtain ⟨-, rfl⟩ := hs
      simp [hashCount, MinerObs.hashes]
  | _ => simp [minerStep, hp] at hs

end

/-! ## What a step can be -/

section

variable {config : MinerConfig} {rate : UInt64 → Nat → UInt64} {s s' : CountingMiner}
  {os : List CountingObs}

theorem countingStep_round {w : Nat}
    (h : countingStep config rate s (.round w) = some (s', os)) :
    (s.miner.workers w).phase = .mining ∧ (s.loop w).ended = false ∧ s.recorded w = true ∧
      ∃ job vm, (s.miner.workers w).currentJob = some job ∧ (s.miner.workers w).vm = some vm ∧
        s' = s.setRounds w
          (some ((s.loop w).next (config.hash vm.dataset) job config.threadCount)) ∧
        os = [.hashed w ((s.loop w).round (config.hash vm.dataset) job
          config.threadCount).hashed] := by
  simp only [countingStep] at h
  split at h
  · next job vm hp hj hv =>
      split at h
      · cases h
      · next hended =>
          split at h
          · next hrecorded =>
              cases h
              exact ⟨hp, Bool.eq_false_iff.mpr hended, hrecorded, job, vm, hj, hv, rfl, rfl⟩
          · cases h
  · cases h

theorem countingStep_miner {input : MinerInput}
    (h : countingStep config rate s (.miner input) = some (s', os)) :
    s.allows input = true ∧ ∃ miner mos,
      minerStep config s.miner input = some (miner, mos) ∧
      s' = { s.leave input with miner := miner } ∧ os = mos.map .miner := by
  simp only [countingStep] at h
  split at h
  · next hallows =>
      split at h
      · next miner mos hs =>
          cases h
          exact ⟨hallows, miner, mos, hs, rfl, rfl⟩
      · cases h
  · cases h

theorem countingStep_record {input : RecordInput}
    (h : countingStep config rate s (.record input) = some (s', os)) :
    ∃ called recording ros, s.record input = some called ∧
      recordStep rate s.recording input = some (recording, ros) ∧
      s' = { called with recording := recording } ∧ os = ros.map .record := by
  simp only [countingStep] at h
  split at h
  · next called recording ros hcalled hs =>
      cases h
      exact ⟨called, recording, ros, hcalled, hs, rfl, rfl⟩
  · cases h

/-- A call that is made is the one that the round is to be recorded with. -/
theorem record_add {w : Nat} {count : UInt64} (h : s.record (.add w count) = some s') :
    ∃ loop hashes, s.rounds w = some loop ∧ loop.unrecorded = some hashes ∧
      count = UInt64.ofNat hashes ∧
      s' = s.setRounds w (some { loop with unrecorded := none }) := by
  simp only [CountingMiner.record] at h
  split at h
  · next loop hloop =>
      split at h
      · next hashes hunrecorded =>
          split at h
          · next hcount =>
              cases h
              exact ⟨loop, hashes, hloop, hunrecorded, hcount, rfl⟩
          · cases h
      · cases h
  · cases h

end

/-! ## The sides of a trace -/

namespace CountingObs

def miner? : CountingObs → Option MinerObs
  | .miner o => some o
  | _ => none

def record? : CountingObs → Option RecordObs
  | .record o => some o
  | _ => none

/-- The blobs that worker `w` has hashed in a round. -/
def hashes (w : Nat) : CountingObs → Nat
  | .hashed v inputs => if v = w then inputs.length else 0
  | _ => 0

end CountingObs

def minerTrace (tr : List CountingObs) : List MinerObs := tr.filterMap CountingObs.miner?

def recordTrace (tr : List CountingObs) : List RecordObs := tr.filterMap CountingObs.record?

def roundHashes (w : Nat) (tr : List CountingObs) : Nat := (tr.map (CountingObs.hashes w)).sum

section

variable (tr os : List CountingObs) (mos : List MinerObs) (ros : List RecordObs) (w : Nat)

theorem minerTrace_append : minerTrace (tr ++ os) = minerTrace tr ++ minerTrace os :=
  List.filterMap_append

theorem recordTrace_append : recordTrace (tr ++ os) = recordTrace tr ++ recordTrace os :=
  List.filterMap_append

theorem roundHashes_append : roundHashes w (tr ++ os) = roundHashes w tr + roundHashes w os := by
  rw [roundHashes, List.map_append, List.sum_append]
  rfl

@[simp] theorem minerTrace_miner : minerTrace (mos.map .miner) = mos := by
  induction mos with
  | nil => rfl
  | cons o mos ih => exact congrArg (o :: ·) ih

@[simp] theorem minerTrace_record : minerTrace (ros.map .record) = [] := by
  simp [minerTrace, CountingObs.miner?]

@[simp] theorem recordTrace_record : recordTrace (ros.map .record) = ros := by
  induction ros with
  | nil => rfl
  | cons o ros ih => exact congrArg (o :: ·) ih

@[simp] theorem recordTrace_miner : recordTrace (mos.map .miner) = [] := by
  simp [recordTrace, CountingObs.record?]

@[simp] theorem roundHashes_miner : roundHashes w (mos.map .miner) = 0 := by
  simp [roundHashes, Function.comp_def, CountingObs.hashes]

@[simp] theorem roundHashes_record : roundHashes w (ros.map .record) = 0 := by
  simp [roundHashes, Function.comp_def, CountingObs.hashes]

variable (inputs : List Bytes)

@[simp] theorem minerTrace_hashed : minerTrace [.hashed w inputs] = [] := rfl

@[simp] theorem recordTrace_hashed : recordTrace [.hashed w inputs] = [] := rfl

@[simp] theorem roundHashes_hashed (v : Nat) :
    roundHashes v [.hashed w inputs] = if w = v then inputs.length else 0 := by
  simp [roundHashes, CountingObs.hashes]

end

/-- A step of `record_hashes` is none of the threads. -/
theorem record_miner {s s' : CountingMiner} {input : RecordInput}
    (h : s.record input = some s') : s'.miner = s.miner := by
  cases input with
  | add w count =>
      obtain ⟨_, _, -, -, -, rfl⟩ := record_add h
      rfl
  | now _ | lock _ | tick _ =>
      cases h
      rfl

/-- The run of the threads in a run of both. -/
theorem minerRun_of_run {config : MinerConfig} {rate : UInt64 → Nat → UInt64} {clock : Nat}
    {is : List CountingInput} {s : CountingMiner} {tr : List CountingObs}
    (h : Run (countingStep config rate) (fun _ _ => True) (.start config.threadCount clock)
      is s tr) :
    ∃ js, Run (minerStep config) (fun _ _ => True) (.start config.threadCount) js s.miner
      (minerTrace tr) := by
  refine h.project CountingMiner.miner CountingObs.miner? fun {s s' os i} _ hs => ?_
  cases i with
  | round w =>
      obtain ⟨-, -, -, job, vm, -, -, rfl, rfl⟩ := countingStep_round hs
      exact Or.inl ⟨rfl, rfl⟩
  | miner input =>
      obtain ⟨-, miner, mos, hstep, rfl, rfl⟩ := countingStep_miner hs
      exact Or.inr ⟨input, trivial, by rw [← minerTrace, minerTrace_miner]; exact hstep⟩
  | record input =>
      obtain ⟨called, recording, ros, hcalled, -, rfl, rfl⟩ := countingStep_record hs
      have hminer := record_miner hcalled
      exact Or.inl ⟨hminer, minerTrace_record ros⟩

/-- The run of the counter in a run of both. -/
theorem recordRun_of_run {config : MinerConfig} {rate : UInt64 → Nat → UInt64} {clock : Nat}
    {is : List CountingInput} {s : CountingMiner} {tr : List CountingObs}
    (h : Run (countingStep config rate) (fun _ _ => True) (.start config.threadCount clock)
      is s tr) :
    ∃ js, Run (recordStep rate) (fun _ _ => True) (.start clock) js s.recording
      (recordTrace tr) := by
  refine h.project CountingMiner.recording CountingObs.record? fun {s s' os i} _ hs => ?_
  cases i with
  | round w =>
      obtain ⟨-, -, -, job, vm, -, -, rfl, rfl⟩ := countingStep_round hs
      exact Or.inl ⟨rfl, rfl⟩
  | miner input =>
      obtain ⟨-, miner, mos, -, rfl, rfl⟩ := countingStep_miner hs
      exact Or.inl ⟨by cases input <;> rfl, recordTrace_miner mos⟩
  | record input =>
      obtain ⟨called, recording, ros, -, hstep, rfl, rfl⟩ := countingStep_record hs
      exact Or.inr ⟨input, trivial, by rw [← recordTrace, recordTrace_record]; exact hstep⟩

/-! ## The invariant -/

/-- What the workers have hashed, round by round. -/
def hashedBlobs (threadCount : UInt32) (tr : List CountingObs) : Nat :=
  ∑ w ∈ Finset.range threadCount.toNat, roundHashes w tr

/-- What they have hashed in the batches that are over. -/
def allHashes (threadCount : UInt32) (tr : List MinerObs) : Nat :=
  ∑ w ∈ Finset.range threadCount.toNat, hashCount w tr

namespace CountingMiner

/-- The blobs of the round that worker `w` has not recorded. -/
def unrecorded (s : CountingMiner) (w : Nat) : Nat :=
  ((s.rounds w).bind Rounds.unrecorded).getD 0

/-- The blobs that the loop of worker `w` has hashed. -/
def looped (s : CountingMiner) (w : Nat) : Nat :=
  ((s.rounds w).map fun rounds => rounds.done.hashed.length).getD 0

/-- What the workers have still to record. -/
def left (threadCount : UInt32) (s : CountingMiner) : Nat :=
  ∑ w ∈ Finset.range threadCount.toNat, s.unrecorded w

end CountingMiner

/-- The loop makes the batch that its worker mines. -/
structure InLoop (config : MinerConfig) (worker : Worker) (rounds : Rounds) : Prop where
  phase : worker.phase = .mining
  blobs : rounds.done.blobs.length = pipelineSize
  unrecorded : rounds.unrecorded.getD 0 ≤ pipelineSize
  result : ∃ job vm, worker.currentJob = some job ∧ worker.vm = some vm ∧
    rounds.result (config.hash vm.dataset) job config.threadCount =
      mineOneBatch (config.hash vm.dataset) job config.threadCount worker.nonce worker.blobs

structure Counting (config : MinerConfig) (s : CountingMiner) (tr : List CountingObs) : Prop where
  counts : addedHashes (recordTrace tr) + s.left config.threadCount =
    hashedBlobs config.threadCount tr
  batches : ∀ w, roundHashes w tr = hashCount w (minerTrace tr) + s.looped w
  looping : ∀ w rounds, s.rounds w = some rounds → InLoop config (s.miner.workers w) rounds

/-- Where one term changes, the sum changes with it. -/
theorem sum_range_of_ne {n w : Nat} (hw : w < n) {f g : Nat → Nat} (h : ∀ v, v ≠ w → g v = f v) :
    (∑ v ∈ Finset.range n, g v) + f w = (∑ v ∈ Finset.range n, f v) + g w := by
  have hmem : w ∈ Finset.range n := Finset.mem_range.mpr hw
  have hrest : ∑ v ∈ (Finset.range n).erase w, g v = ∑ v ∈ (Finset.range n).erase w, f v :=
    Finset.sum_congr rfl fun v hv => h v (Finset.ne_of_mem_erase hv)
  have hg := Finset.add_sum_erase _ g hmem
  have hf := Finset.add_sum_erase _ f hmem
  omega

section

variable {s : CountingMiner} {v w : Nat} {rounds : Option Rounds}

@[simp] theorem unrecorded_setRounds_self :
    (s.setRounds w rounds).unrecorded w = (rounds.bind Rounds.unrecorded).getD 0 := by
  simp [CountingMiner.setRounds, CountingMiner.unrecorded]

@[simp] theorem unrecorded_setRounds_of_ne (h : v ≠ w) :
    (s.setRounds w rounds).unrecorded v = s.unrecorded v := by
  simp [CountingMiner.setRounds, CountingMiner.unrecorded, h]

@[simp] theorem looped_setRounds_self :
    (s.setRounds w rounds).looped w =
      (rounds.map fun rounds => rounds.done.hashed.length).getD 0 := by
  simp [CountingMiner.setRounds, CountingMiner.looped]

@[simp] theorem looped_setRounds_of_ne (h : v ≠ w) :
    (s.setRounds w rounds).looped v = s.looped v := by
  simp [CountingMiner.setRounds, CountingMiner.looped, h]

theorem left_setRounds {T : UInt32} (hw : w < T.toNat) (loop : Option Rounds) :
    (s.setRounds w loop).left T + s.unrecorded w =
      s.left T + (loop.bind Rounds.unrecorded).getD 0 := by
  rw [← unrecorded_setRounds_self (s := s) (w := w)]
  exact sum_range_of_ne hw fun v hv => unrecorded_setRounds_of_ne hv

theorem hashedBlobs_hashed {T : UInt32} (hw : w < T.toNat) (tr : List CountingObs)
    (inputs : List Bytes) :
    hashedBlobs T (tr ++ [.hashed w inputs]) = hashedBlobs T tr + inputs.length := by
  have hsum := sum_range_of_ne hw (f := fun v => roundHashes v tr)
    (g := fun v => roundHashes v (tr ++ [.hashed w inputs]))
    fun v hv => by simp [roundHashes_append, hv.symm]
  have hself : roundHashes w (tr ++ [.hashed w inputs]) = roundHashes w tr + inputs.length := by
    simp [roundHashes_append]
  unfold hashedBlobs
  omega

theorem hashedBlobs_miner (T : UInt32) (tr : List CountingObs) (mos : List MinerObs) :
    hashedBlobs T (tr ++ mos.map .miner) = hashedBlobs T tr := by
  simp [hashedBlobs, roundHashes_append]

theorem hashedBlobs_record (T : UInt32) (tr : List CountingObs) (ros : List RecordObs) :
    hashedBlobs T (tr ++ ros.map .record) = hashedBlobs T tr := by
  simp [hashedBlobs, roundHashes_append]

theorem length_hashed_loop : (s.loop w).done.hashed.length = s.looped w := by
  unfold CountingMiner.loop CountingMiner.looped
  cases s.rounds w <;> rfl

end

section

variable {config : MinerConfig} {rate : UInt64 → Nat → UInt64} {s s' : CountingMiner}
  {tr os : List CountingObs}

theorem counting_start (config : MinerConfig) (clock : Nat) :
    Counting config (.start config.threadCount clock) [] where
  counts := by simp [CountingMiner.start, CountingMiner.left, CountingMiner.unrecorded,
    hashedBlobs, roundHashes, addedHashes, recordTrace]
  batches _ := rfl
  looping _ _ hrounds := by cases hrounds

theorem unrecorded_of_recorded {w : Nat} (h : s.recorded w = true) : s.unrecorded w = 0 := by
  have hnone := (Bool.and_eq_true_iff.mp h).1
  unfold CountingMiner.loop at hnone
  unfold CountingMiner.unrecorded
  cases hrounds : s.rounds w with
  | none => rfl
  | some rounds =>
      rw [hrounds, Option.getD_some, Option.isNone_iff_eq_none] at hnone
      simp [hnone]

/-- What is known of a loop holds of one that begins. -/
theorem Counting.inLoop (h : Counting config s tr) (hsound : AllSound s.miner (minerTrace tr))
    {w : Nat} {job : Job} {vm : Vm} (hp : (s.miner.workers w).phase = .mining)
    (hj : (s.miner.workers w).currentJob = some job) (hv : (s.miner.workers w).vm = some vm) :
    InLoop config (s.miner.workers w) (s.loop w) := by
  unfold CountingMiner.loop
  cases hrounds : s.rounds w with
  | some rounds => exact h.looping w rounds hrounds
  | none =>
      exact
        { phase := hp
          blobs := ((hsound w).job.buffers job hj).1
          unrecorded := Nat.zero_le _
          result := ⟨job, vm, hj, hv, Rounds.result_start _ _ _ _⟩ }

theorem InLoop.next {worker : Worker} {rounds : Rounds} {job : Job} {vm : Vm}
    (h : InLoop config worker rounds) (hended : rounds.ended = false)
    (hj : worker.currentJob = some job) (hv : worker.vm = some vm) :
    InLoop config worker (rounds.next (config.hash vm.dataset) job config.threadCount) where
  phase := h.phase
  blobs := (length_mineRound_blobs _ _ _ _ _ _).trans h.blobs
  unrecorded := by
    simp only [Rounds.next]
    split
    · exact Nat.zero_le _
    · exact Nat.min_le_right _ _
  result := by
    obtain ⟨job', vm', hj', hv', hresult⟩ := h.result
    rw [hj] at hj'
    rw [hv] at hv'
    cases hj'
    cases hv'
    exact ⟨job, vm, hj, hv, (Rounds.result_next _ _ _ hended).trans hresult⟩

/-- A round is hashed, and is still to be recorded. -/
theorem Counting.round (h : Counting config s tr)
    (hsound : AllSound s.miner (minerTrace tr))
    (hlt : ∀ w, (s.miner.workers w).phase ≠ .exited → w < config.threadCount.toNat) {w : Nat}
    (hs : countingStep config rate s (.round w) = some (s', os)) :
    Counting config s' (tr ++ os) := by
  obtain ⟨hp, hended, hrecorded, job, vm, hj, hv, rfl, rfl⟩ := countingStep_round hs
  have hloop := h.inLoop hsound hp hj hv
  have hw := hlt w (by simp [hp])
  constructor
  · have hnone := unrecorded_of_recorded hrecorded
    have hleft := left_setRounds (s := s) hw
      (some ((s.loop w).next (config.hash vm.dataset) job config.threadCount))
    rw [Option.bind_some, Rounds.unrecorded_next _ _ _ hloop.blobs] at hleft
    have hcounts := h.counts
    rw [hashedBlobs_hashed hw, recordTrace_append, recordTrace_hashed, List.append_nil]
    omega
  · intro v
    have hbatches := h.batches v
    rw [roundHashes_append, roundHashes_hashed, minerTrace_append, minerTrace_hashed,
      List.append_nil]
    by_cases hvw : v = w
    · subst hvw
      rw [looped_setRounds_self, if_pos rfl]
      simp only [Option.map_some, Option.getD_some, Rounds.next, Batch.append,
        List.length_append, length_hashed_loop]
      omega
    · rw [looped_setRounds_of_ne hvw, if_neg (Ne.symm hvw)]
      omega
  · intro v rounds hrounds
    by_cases hvw : v = w
    · subst hvw
      simp only [CountingMiner.setRounds, Function.update_self, Option.some.injEq] at hrounds
      subst hrounds
      exact hloop.next hended hj hv
    · simp only [CountingMiner.setRounds, Function.update_of_ne hvw] at hrounds
      exact h.looping v rounds hrounds

/-- What a worker that leaves its loop has hashed there is its batch. -/
theorem Counting.leave (h : Counting config s tr) {w : Nat} {miner : MinerState}
    {mos : List MinerObs} (hallows : s.allows (.mine w) = true)
    (hs : minerStep config s.miner (.mine w) = some (miner, mos)) :
    s.unrecorded w = 0 ∧ hashCount w mos = s.looped w := by
  simp only [CountingMiner.allows] at hallows
  split at hallows
  · next job vm hj hv =>
      obtain ⟨hended, hrecorded⟩ := Bool.and_eq_true_iff.mp hallows
      refine ⟨unrecorded_of_recorded hrecorded, ?_⟩
      rw [batch_of_mine hj hv hs]
      unfold CountingMiner.loop at hended
      unfold CountingMiner.looped
      cases hrounds : s.rounds w with
      | none =>
          -- a loop that has not begun is not over
          rw [hrounds] at hended
          cases hended
      | some rounds =>
          rw [hrounds, Option.getD_some] at hended
          obtain ⟨job', vm', hj', hv', hresult⟩ := (h.looping w rounds hrounds).result
          rw [hj] at hj'
          rw [hv] at hv'
          cases hj'
          cases hv'
          rw [← hresult, Rounds.result_of_ended _ _ _ hended]
          rfl
  · next hnot =>
      have hnone : s.rounds w = none := by
        cases hrounds : s.rounds w with
        | none => rfl
        | some rounds =>
            obtain ⟨job, vm, hj, hv, -⟩ := (h.looping w rounds hrounds).result
            exact absurd hv (hnot job vm hj)
      refine ⟨by simp [CountingMiner.unrecorded, hnone], ?_⟩
      have hempty : mos = [] := by
        simp only [minerStep] at hs
        split at hs
        · next job vm hp hj hv => exact absurd hv (hnot job vm hj)
        · cases hs
          rfl
        · cases hs
      simp [CountingMiner.looped, hnone, hempty, hashCount]

theorem Counting.miner (h : Counting config s tr) {input : MinerInput} {miner : MinerState}
    {mos : List MinerObs} (hallows : s.allows input = true)
    (hs : minerStep config s.miner input = some (miner, mos)) :
    Counting config { s.leave input with miner := miner } (tr ++ mos.map .miner) := by
  have hleft : ∀ v, (s.leave input).unrecorded v = s.unrecorded v := by
    intro v
    cases input with
    | mine w =>
        by_cases hvw : v = w
        · subst hvw
          rw [CountingMiner.leave, unrecorded_setRounds_self, (h.leave hallows hs).1]
          rfl
        · exact unrecorded_setRounds_of_ne hvw
    | _ => rfl
  constructor
  · rw [recordTrace_append, recordTrace_miner, List.append_nil, hashedBlobs_miner, ← h.counts]
    exact congrArg _ (Finset.sum_congr rfl fun v _ => hleft v)
  · intro v
    rw [roundHashes_append, roundHashes_miner, Nat.add_zero, minerTrace_append, minerTrace_miner,
      hashCount_append, h.batches v]
    show _ = _ + (s.leave input).looped v
    by_cases hi : input = .mine v
    · subst hi
      have hbatch := (h.leave hallows hs).2
      rw [CountingMiner.leave, looped_setRounds_self]
      simp only [Option.map_none, Option.getD_none]
      omega
    · have hsame : (s.leave input).looped v = s.looped v := by
        cases input with
        | mine w => exact looped_setRounds_of_ne fun hvw => hi (by rw [hvw])
        | _ => rfl
      rw [hashCount_of_step hi hs, hsame, Nat.add_zero]
  · intro v rounds hrounds
    have hi : input ≠ .mine v ∧ s.rounds v = some rounds := by
      cases input with
      | mine w =>
          by_cases hvw : v = w
          · subst hvw
            simp [CountingMiner.leave, CountingMiner.setRounds] at hrounds
          · refine ⟨by simpa using Ne.symm hvw, ?_⟩
            simpa [CountingMiner.leave, CountingMiner.setRounds, hvw] using hrounds
      | _ => exact ⟨by simp, hrounds⟩
    have hloop := h.looping v rounds hi.2
    show InLoop config (miner.workers v) rounds
    rw [worker_of_mining hloop.phase hi.1 hs]
    exact hloop

/-- A step of `record_hashes` other than `fetch_add`. -/
theorem Counting.record (h : Counting config s tr) {recording : Recording} {ros : List RecordObs}
    (hadded : addedHashes ros = 0) :
    Counting config { s with recording := recording } (tr ++ ros.map .record) where
  counts := by
    rw [recordTrace_append, recordTrace_record, addedHashes_append, hadded, hashedBlobs_record,
      ← h.counts]
    rfl
  batches v := by
    rw [roundHashes_append, roundHashes_record, minerTrace_append, minerTrace_record,
      List.append_nil]
    exact h.batches v
  looping := h.looping

/-- The call for the last round of a worker. -/
theorem Counting.add (h : Counting config s tr)
    (hlt : ∀ w, (s.miner.workers w).phase ≠ .exited → w < config.threadCount.toNat)
    {w hashes : Nat} {loop : Rounds} {recording : Recording} (hloop : s.rounds w = some loop)
    (hunrecorded : loop.unrecorded = some hashes) :
    Counting config
      { s.setRounds w (some { loop with unrecorded := none }) with recording := recording }
      (tr ++ [RecordObs.added w (UInt64.ofNat hashes)].map .record) := by
  have hin := h.looping w loop hloop
  have hw := hlt w (by simp [hin.phase])
  have hnow : s.unrecorded w = hashes := by
    simp [CountingMiner.unrecorded, hloop, hunrecorded]
  have hsmall : (UInt64.ofNat hashes).toNat = hashes := by
    have hle := hin.unrecorded
    rw [hunrecorded, Option.getD_some, pipelineSize] at hle
    rw [UInt64.toNat_ofNat']
    omega
  constructor
  · have hleft := left_setRounds (s := s) hw (some { loop with unrecorded := none })
    have hcounts := h.counts
    rw [recordTrace_append, recordTrace_record, addedHashes_append, hashedBlobs_record]
    simp only [addedHashes, List.map_cons, List.map_nil, RecordObs.count, List.sum_singleton,
      hsmall, Option.bind_some, Option.getD_none] at hcounts hleft ⊢
    show _ + hashes + (s.setRounds w (some { loop with unrecorded := none })).left _ = _
    omega
  · intro v
    have hsame : (s.setRounds w (some { loop with unrecorded := none })).looped v = s.looped v := by
      by_cases hvw : v = w
      · subst hvw
        simp [CountingMiner.looped, CountingMiner.setRounds, hloop]
      · exact looped_setRounds_of_ne hvw
    rw [roundHashes_append, roundHashes_record, minerTrace_append, minerTrace_record,
      List.append_nil]
    exact (h.batches v).trans (congrArg _ hsame.symm)
  · intro v rounds hrounds
    by_cases hvw : v = w
    · subst hvw
      simp only [CountingMiner.setRounds, Function.update_self, Option.some.injEq] at hrounds
      subst hrounds
      exact { hin with unrecorded := Nat.zero_le _ }
    · simp only [CountingMiner.setRounds, Function.update_of_ne hvw] at hrounds
      exact h.looping v rounds hrounds

/-- What a step of `record_hashes` adds is its own observation. -/
theorem added_of_recordStep {s s' : Recording} {input : RecordInput} {ros : List RecordObs}
    (hs : recordStep rate s input = some (s', ros)) :
    (∃ w count, input = .add w count ∧ ros = [.added w count]) ∨
      (∀ w count, input ≠ .add w count) ∧ addedHashes ros = 0 := by
  cases input with
  | add w count =>
      simp only [recordStep] at hs
      split at hs
      · cases hs
        exact Or.inl ⟨w, count, rfl, rfl⟩
      · cases hs
  | now w =>
      simp only [recordStep] at hs
      split at hs
      · cases hs
        exact Or.inr ⟨by simp, rfl⟩
      · cases hs
  | lock w =>
      simp only [recordStep] at hs
      split at hs
      · cases hs
        refine Or.inr ⟨by simp, ?_⟩
        simp only [MiningStats.sample]
        split
        · rfl
        · split <;> rfl
      · cases hs
  | tick elapsed =>
      cases hs
      exact Or.inr ⟨by simp, rfl⟩

theorem counting_of_run {clock : Nat} {is : List CountingInput}
    (h : Run (countingStep config rate) (fun _ _ => True) (.start config.threadCount clock)
      is s tr) : Counting config s tr := by
  induction h with
  | nil => exact counting_start config clock
  | @snoc is s s' tr os i hrun _ hs ih =>
      obtain ⟨js, hminer⟩ := minerRun_of_run hrun
      cases i with
      | round w => exact ih.round (allSound_of_run hminer) (fun _ => lt_of_run hminer) hs
      | miner input =>
          obtain ⟨hallows, miner, mos, hstep, rfl, rfl⟩ := countingStep_miner hs
          exact ih.miner hallows hstep
      | record input =>
          obtain ⟨called, recording, ros, hcalled, hstep, rfl, rfl⟩ := countingStep_record hs
          rcases added_of_recordStep hstep with ⟨w, count, rfl, rfl⟩ | ⟨hother, hadded⟩
          · obtain ⟨loop, hashes, hloop, hunrecorded, rfl, rfl⟩ := record_add hcalled
            exact ih.add (fun _ => lt_of_run hminer) hloop hunrecorded
          · have hsame : called = s := by
              cases input with
              | add w count => exact absurd rfl (hother w count)
              | now _ | lock _ | tick _ => exact (Option.some.inj hcalled).symm
            rw [hsame]
            exact ih.record hadded

end

/-- In every run the counter is behind what the threads have hashed by a round for each thread
at most. It is exact when no thread is in the loop of `mine_one_batch`, and what has been
hashed are then the batches that have been mined. -/
theorem hashes_counted (config : MinerConfig) (rate : UInt64 → Nat → UInt64) {clock : Nat}
    {is : List CountingInput} {s : CountingMiner} {tr : List CountingObs}
    (h : Run (countingStep config rate) (fun _ _ => True) (.start config.threadCount clock)
      is s tr)
    (hsmall : hashedBlobs config.threadCount tr < 2 ^ 64) :
    s.recording.stats.totalHashes.toNat ≤ hashedBlobs config.threadCount tr ∧
      hashedBlobs config.threadCount tr ≤
        s.recording.stats.totalHashes.toNat + config.threadCount.toNat * pipelineSize ∧
      ((∀ w < config.threadCount.toNat, s.rounds w = none) →
        s.recording.stats.totalHashes.toNat = hashedBlobs config.threadCount tr ∧
          hashedBlobs config.threadCount tr =
            allHashes config.threadCount (minerTrace tr)) := by
  have hcounting := counting_of_run h
  have hcounts := hcounting.counts
  obtain ⟨js, hrecord⟩ := recordRun_of_run h
  have htotal := (tallied_of_run hrecord (by omega)).total
  rw [htotal]
  have hround : ∀ w, s.unrecorded w ≤ pipelineSize := by
    intro w
    unfold CountingMiner.unrecorded
    cases hloop : s.rounds w with
    | none => exact Nat.zero_le _
    | some rounds => exact (hcounting.looping w rounds hloop).unrecorded
  have hleft : s.left config.threadCount ≤ config.threadCount.toNat * pipelineSize := by
    calc s.left config.threadCount
        ≤ ∑ _w ∈ Finset.range config.threadCount.toNat, pipelineSize :=
          Finset.sum_le_sum fun w _ => hround w
      _ = config.threadCount.toNat * pipelineSize := by
          rw [Finset.sum_const_nat (m := pipelineSize) (fun _ _ => rfl), Finset.card_range]
  refine ⟨by omega, by omega, fun hquiet => ⟨?_, ?_⟩⟩
  · have hnone : s.left config.threadCount = 0 := by
      refine Finset.sum_eq_zero fun w hw => ?_
      simp [CountingMiner.unrecorded, hquiet w (Finset.mem_range.mp hw)]
    omega
  · refine Finset.sum_congr rfl fun w hw => ?_
    rw [hcounting.batches w]
    simp [CountingMiner.looped, hquiet w (Finset.mem_range.mp hw)]

/-- One batch, round by round. -/
theorem hashes_counted_batch : ∃ is s tr,
    Run (countingStep worstConfig fun hashes _ => hashes) (fun _ _ => True) (.start 1 0) is s tr ∧
      hashedBlobs 1 tr = 1024 ∧ allHashes 1 (minerTrace tr) = 1024 ∧
      s.recording.stats.totalHashes.toNat = 1024 := by
  have hexec : (exec (countingStep worstConfig fun hashes _ => hashes) (.start 1 0)
      ([.miner (.publish zeroBlobJob), .miner (.read 0), .miner (.cache (.lock 0)),
        .miner (.cache (.built 0 true)), .miner (.cache (.store 0)), .miner (.createVm 0 true)] ++
        (List.replicate 64
          [.round 0, .record (.add 0 16), .record (.now 0), .record (.lock 0)]).flatten ++
        [.miner (.mine 0)])).any
      (fun r => decide (hashedBlobs 1 r.2 = 1024) && (r.1.rounds 0).isNone) = true := by
    decide +kernel
  obtain ⟨s, tr, hrun, htest⟩ := anyRun_of_exec_test
    (p := fun (s : CountingMiner) (tr : List CountingObs) =>
      decide (hashedBlobs 1 tr = 1024) && (s.rounds 0).isNone) hexec
  obtain ⟨hhashed, hnone⟩ := Bool.and_eq_true_iff.mp htest
  have hhashed : hashedBlobs 1 tr = 1024 := of_decide_eq_true hhashed
  have hsmall : hashedBlobs worstConfig.threadCount tr < 2 ^ 64 := by
    show hashedBlobs 1 tr < 2 ^ 64
    rw [hhashed]
    decide
  obtain ⟨htotal, hbatches⟩ := (hashes_counted worstConfig _ hrun hsmall).2.2 fun w hw => by
    obtain rfl : w = 0 := by
      have hone : worstConfig.threadCount.toNat = 1 := rfl
      omega
    exact Option.isNone_iff_eq_none.mp hnone
  exact ⟨_, s, tr, hrun, hhashed, hbatches.symm.trans hhashed, htotal.trans hhashed⟩

end LiteXmr
