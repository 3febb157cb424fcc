/-
LiteXmr.Miner.BenchmarkTheorems — what the benchmark measures, and when it
comes back.

The caller waits for a number of reports, and a thread that could not make
its VM never reports. So a run can still end exactly as long as no thread has
given up (`benchmark_returns_iff`). When it has ended, every thread hashed with
a VM of its own, none before all of them were ready, and every batch is
counted once (`benchmark_counts`).

`BenchMoves` lists what a step can be. Numbers of threads are sums over the
threads (`sum_setWorker`), so that one equation says how each of them changes.
-/
import Mathlib.Algebra.BigOperators.Group.Finset.Basic
import Mathlib.Algebra.Order.BigOperators.Group.Finset
import LiteXmr.Miner.Benchmark

namespace LiteXmr

open Lts

/-! ## What a step can be -/

inductive BenchMoves (t : UInt32) (s : Benchmark) :
    BenchInput → Benchmark → List BenchObs → Prop where
  | vmCreated {w : Nat} {available : Bool} {vm : Vm} (hw : w < benchThreads t)
      (hp : (s.workers w).phase = .starting) (hvm : Vm.new s.dataset available = some vm) :
      BenchMoves t s (.createVm w available)
        (s.setWorker w { s.workers w with phase := .created, vm := some vm }) [.vmCreated w vm]
  | gaveUp {w : Nat} {available : Bool} (hw : w < benchThreads t)
      (hp : (s.workers w).phase = .starting) :
      BenchMoves t s (.createVm w available)
        (s.setWorker w { s.workers w with phase := .exited }) []
  | report {w : Nat} (hp : (s.workers w).phase = .created) :
      BenchMoves t s (.report w)
        { s.setWorker w { s.workers w with phase := .spinning } with
          readyWorkers := s.readyWorkers + 1 } [.reported w]
  | spin {w : Nat} (hp : (s.workers w).phase = .spinning)
      (hflag : s.start = true ∨ s.stop = true) :
      BenchMoves t s (.spin w) (s.setWorker w { s.workers w with phase := .looping }) []
  | goOn {w : Nat} (hp : (s.workers w).phase = .looping) (hstop : s.stop = false) :
      BenchMoves t s (.check w) (s.setWorker w { s.workers w with phase := .hashing }) []
  | leave {w : Nat} (hp : (s.workers w).phase = .looping) (hstop : s.stop = true) :
      BenchMoves t s (.check w) (s.setWorker w { s.workers w with phase := .exited }) []
  | hashed {w : Nat} {vm : Vm} {filled : List Bytes × UInt32}
      (hp : (s.workers w).phase = .hashing) (hvm : (s.workers w).vm = some vm) :
      BenchMoves t s (.hash w)
        (s.setWorker w
          { s.workers w with phase := .adding, blobs := filled.1, nonce := filled.2 })
        [.hashed w vm filled.1]
  | add {w : Nat} (hp : (s.workers w).phase = .adding) :
      BenchMoves t s (.add w)
        { s.setWorker w { s.workers w with phase := .looping } with
          totalHashes := s.totalHashes + 16 } []
  | started (hm : s.main = .waiting) (hready : benchThreads t ≤ s.readyWorkers) :
      BenchMoves t s .poll { s with start := true, main := .sleeping } [.started]
  | wake (hm : s.main = .sleeping) :
      BenchMoves t s .wake { s with stop := true, main := .joining 0 } [.stopped]
  | joined {next : Nat} (hm : s.main = .joining next) (hnext : next < benchThreads t)
      (hp : (s.workers next).phase = .exited) :
      BenchMoves t s .join { s with main := .joining (next + 1) } []
  | finished {next : Nat} (hm : s.main = .joining next) (hnext : benchThreads t ≤ next) :
      BenchMoves t s .join { s with main := .finished s.totalHashes } []

theorem benchMoves_of_step {t : UInt32} {s s' : Benchmark} {i : BenchInput}
    {os : List BenchObs} (h : benchStep t s i = some (s', os)) : BenchMoves t s i s' os := by
  cases i with
  | createVm w available =>
      simp only [benchStep] at h
      split at h
      · next hp =>
          split at h
          · next vm hvm =>
              cases h
              exact .vmCreated hp.1 hp.2 hvm
          · cases h
            exact .gaveUp hp.1 hp.2
      · cases h
  | report w =>
      simp only [benchStep] at h
      split at h
      · next hp =>
          cases h
          exact .report hp
      · cases h
  | spin w =>
      simp only [benchStep] at h
      split at h
      · next hp =>
          cases h
          exact .spin hp.1 hp.2
      · cases h
  | check w =>
      simp only [benchStep] at h
      split at h
      · next hp =>
          cases hstop : s.stop with
          | false =>
              simp only [hstop, Bool.false_eq_true, if_false] at h
              cases h
              exact .goOn hp hstop
          | true =>
              simp only [hstop, if_true] at h
              cases h
              exact .leave hp hstop
      · cases h
  | hash w =>
      simp only [benchStep] at h
      split at h
      · next vm hp hvm =>
          cases h
          exact .hashed hp hvm
      · cases h
  | add w =>
      simp only [benchStep] at h
      split at h
      · next hp =>
          cases h
          exact .add hp
      · cases h
  | poll =>
      simp only [benchStep] at h
      split at h
      · next hm =>
          split at h
          · cases h
          · next hready =>
              cases h
              exact .started hm (Nat.le_of_not_lt hready)
      · cases h
  | wake =>
      simp only [benchStep] at h
      split at h
      · next hm =>
          cases h
          exact .wake hm
      · cases h
  | join =>
      simp only [benchStep] at h
      split at h
      · next next hm =>
          split at h
          · next hnext =>
              split at h
              · next hp =>
                  cases h
                  exact .joined hm hnext hp
              · cases h
          · next hnext =>
              cases h
              exact .finished hm (Nat.le_of_not_lt hnext)
      · cases h

/-! ## Sums over the threads -/

/-- A number for each thread, added up. -/
def Benchmark.sum (t : UInt32) (s : Benchmark) (f : BenchWorker → Nat) : Nat :=
  ∑ w ∈ Finset.range (benchThreads t), f (s.workers w)

section Sums

variable {t : UInt32} {s : Benchmark} {w : Nat}

/-- A step of a thread changes its own number. -/
theorem sum_setWorker (hw : w < benchThreads t) (worker : BenchWorker) (f : BenchWorker → Nat) :
    (s.setWorker w worker).sum t f + f (s.workers w) = s.sum t f + f worker := by
  have hmem : w ∈ Finset.range (benchThreads t) := Finset.mem_range.mpr hw
  have hrest : ∀ v ∈ (Finset.range (benchThreads t)).erase w,
      f ((s.setWorker w worker).workers v) = f (s.workers v) := by
    intro v hv
    simp [Benchmark.setWorker, Function.update_of_ne (Finset.ne_of_mem_erase hv)]
  have hself : (s.setWorker w worker).workers w = worker := by simp [Benchmark.setWorker]
  rw [Benchmark.sum, Benchmark.sum, ← Finset.add_sum_erase _ _ hmem,
    ← Finset.add_sum_erase _ (fun v => f (s.workers v)) hmem, Finset.sum_congr rfl hrest, hself]
  omega

/-- A number that is one at most adds up to the number of threads only if it is one for
each of them. -/
theorem eq_one_of_sum {f : BenchWorker → Nat} (hf : ∀ worker, f worker ≤ 1)
    (hsum : benchThreads t ≤ s.sum t f) (hw : w < benchThreads t) : f (s.workers w) = 1 := by
  have hone : s.sum t (fun _ => 1) = benchThreads t := by
    rw [Benchmark.sum, Finset.sum_const_nat (m := 1) (fun _ _ => rfl), Finset.card_range,
      Nat.mul_one]
  by_contra hne
  have hless : s.sum t f < s.sum t (fun _ => 1) := by
    refine Finset.sum_lt_sum (fun v _ => hf _) ⟨w, Finset.mem_range.mpr hw, ?_⟩
    exact Nat.lt_of_le_of_ne (hf _) hne
  omega

end Sums

/-! ## Threads -/

/-- The thread has reported that it is ready. -/
def BenchWorker.reported (worker : BenchWorker) : Nat :=
  match worker.phase with
  | .starting | .created => 0
  | .spinning | .looping | .hashing | .adding => 1
  | .exited => if worker.vm.isSome then 1 else 0

/-- The thread has hashed a batch that is not counted yet. -/
def BenchWorker.uncounted (worker : BenchWorker) : Nat :=
  if worker.phase = .adding then 1 else 0

/-- The thread has seen one of the flags. -/
def BenchWorker.underway (worker : BenchWorker) : Bool :=
  match worker.phase with
  | .looping | .hashing | .adding => true
  | _ => false

/-- The thread has returned without a VM. -/
def BenchWorker.GaveUp (worker : BenchWorker) : Prop :=
  worker.phase = .exited ∧ worker.vm = none

/-- The VM is made in the first step of a thread. -/
structure BenchWorker.Consistent (worker : BenchWorker) : Prop where
  starting : worker.phase = .starting → worker.vm = none
  running : worker.phase ≠ .starting → worker.phase ≠ .exited → worker.vm.isSome = true

theorem reported_le_one (worker : BenchWorker) : worker.reported ≤ 1 := by
  unfold BenchWorker.reported
  split <;> first | omega | (split <;> omega)

theorem reported_of_gaveUp {worker : BenchWorker} (h : worker.GaveUp) : worker.reported = 0 := by
  simp [BenchWorker.reported, h.1, h.2]

/-- A batch in a trace. -/
def BenchObs.isHashed : BenchObs → Bool
  | .hashed _ _ _ => true
  | _ => false

/-- What a step of a thread does to the whole: it replaces the thread, and the counters
follow it. -/
structure ThreadStep (t : UInt32) (s s' : Benchmark) (os : List BenchObs) (w : Nat)
    (worker : BenchWorker) : Prop where
  workers : s'.workers = (s.setWorker w worker).workers
  main : s'.main = s.main
  start : s'.start = s.start
  stop : s'.stop = s.stop
  dataset : s'.dataset = s.dataset
  lt : w < benchThreads t
  running : (s.workers w).phase ≠ .exited
  consistent : worker.Consistent
  ready : s'.readyWorkers + (s.workers w).reported = s.readyWorkers + worker.reported
  reported : (s.workers w).reported ≤ worker.reported
  underway : worker.underway = true →
    s.start = true ∨ s.stop = true ∨ (s.workers w).underway = true
  counted : ∃ added, s'.totalHashes = s.totalHashes + UInt64.ofNat (16 * added) ∧
    added + worker.uncounted = (s.workers w).uncounted + os.countP BenchObs.isHashed
  seen : ∀ o ∈ os, (∃ vm, o = .vmCreated w vm) ∨
    (o = .reported w ∧ ∃ vm, (s.workers w).vm = some vm) ∨
    ∃ vm inputs, o = .hashed w vm inputs ∧ (s.workers w).vm = some vm ∧
      (s.workers w).underway = true
  created : ∀ vm, worker.vm = some vm → (s.workers w).vm = some vm ∨ .vmCreated w vm ∈ os
  told : worker.reported = 1 → (s.workers w).reported = 1 ∨ .reported w ∈ os

/-- What a step of the caller does: it goes on, and the threads are as they were. -/
inductive CallerStep (t : UInt32) (s : Benchmark) : Benchmark → List BenchObs → Prop where
  | started (hm : s.main = .waiting) (hready : benchThreads t ≤ s.readyWorkers) :
      CallerStep t s { s with start := true, main := .sleeping } [.started]
  | wake (hm : s.main = .sleeping) :
      CallerStep t s { s with stop := true, main := .joining 0 } [.stopped]
  | joined {next : Nat} (hm : s.main = .joining next) (hnext : next < benchThreads t)
      (hp : (s.workers next).phase = .exited) :
      CallerStep t s { s with main := .joining (next + 1) } []
  | finished {next : Nat} (hm : s.main = .joining next) (hnext : benchThreads t ≤ next) :
      CallerStep t s { s with main := .finished s.totalHashes } []

/-- The threads that are spawned are the only ones. -/
structure ThreadsKnown (t : UInt32) (s : Benchmark) : Prop where
  consistent : ∀ w, (s.workers w).Consistent
  spawned : ∀ w, (s.workers w).phase ≠ .starting → w < benchThreads t

section Steps

variable {t : UInt32} {s s' : Benchmark} {os : List BenchObs} {i : BenchInput}

/-- A thread goes on to another phase, and nothing is counted. -/
theorem threadStep_of_phase {w : Nat} {phase : BenchPhase} (h : ThreadsKnown t s)
    (hlt : w < benchThreads t) (hrunning : (s.workers w).phase ≠ .exited)
    (hphase : phase ≠ .starting)
    (hvm : phase ≠ .exited → (s.workers w).phase ≠ .starting)
    (hreported : ({ s.workers w with phase } : BenchWorker).reported = (s.workers w).reported)
    (hunderway : ({ s.workers w with phase } : BenchWorker).underway = true →
      s.start = true ∨ s.stop = true ∨ (s.workers w).underway = true)
    (huncounted :
      ({ s.workers w with phase } : BenchWorker).uncounted = (s.workers w).uncounted) :
    ThreadStep t s (s.setWorker w { s.workers w with phase }) [] w
      { s.workers w with phase } where
  workers := rfl
  main := rfl
  start := rfl
  stop := rfl
  dataset := rfl
  lt := hlt
  running := hrunning
  consistent := ⟨fun heq => absurd heq hphase,
    fun _ hne => (h.consistent w).running (hvm hne) hrunning⟩
  ready := by rw [hreported]; rfl
  reported := Nat.le_of_eq hreported.symm
  underway := hunderway
  counted := ⟨0, by simp [Benchmark.setWorker], by simp [huncounted]⟩
  seen := by simp
  created _ hv := Or.inl hv
  told hone := Or.inl (hreported ▸ hone)

/-- A step is one of a thread or one of the caller. -/
theorem step_cases (h : ThreadsKnown t s) (hs : benchStep t s i = some (s', os)) :
    (∃ w worker, ThreadStep t s s' os w worker) ∨ CallerStep t s s' os := by
  have hlt : ∀ {w phase}, (s.workers w).phase = phase → phase ≠ .starting →
      w < benchThreads t := fun hp hne => h.spawned _ (hp ▸ hne)
  cases benchMoves_of_step hs with
  | @vmCreated w available vm hw hp hvm =>
      refine Or.inl ⟨w, { s.workers w with phase := .created, vm := some vm }, ?_⟩
      exact
        { workers := rfl, main := rfl, start := rfl, stop := rfl, dataset := rfl, lt := hw
          running := by simp [hp]
          consistent := ⟨by simp, by simp⟩
          ready := by simp [BenchWorker.reported, hp, Benchmark.setWorker]
          reported := by simp [BenchWorker.reported, hp]
          underway := by simp [BenchWorker.underway]
          counted := ⟨0, by simp [Benchmark.setWorker],
            by simp [BenchWorker.uncounted, hp, BenchObs.isHashed]⟩
          seen := by simp
          created := by simp
          told := by simp [BenchWorker.reported] }
  | @gaveUp w available hw hp =>
      have hvm := (h.consistent w).starting hp
      exact Or.inl ⟨w, _, threadStep_of_phase h hw (by simp [hp]) (by simp) (by simp)
        (by simp [BenchWorker.reported, hp, hvm]) (by simp [BenchWorker.underway])
        (by simp [BenchWorker.uncounted, hp])⟩
  | @report w hp =>
      have hvm := (h.consistent w).running (by simp [hp]) (by simp [hp])
      refine Or.inl ⟨w, { s.workers w with phase := .spinning }, ?_⟩
      exact
        { workers := rfl, main := rfl, start := rfl, stop := rfl, dataset := rfl
          lt := hlt hp (by simp)
          running := by simp [hp]
          consistent := ⟨by simp, fun _ _ => hvm⟩
          ready := by simp [BenchWorker.reported, hp]
          reported := by simp [BenchWorker.reported, hp]
          underway := by simp [BenchWorker.underway]
          counted := ⟨0, by simp [Benchmark.setWorker],
            by simp [BenchWorker.uncounted, hp, BenchObs.isHashed]⟩
          seen := by simpa using Option.isSome_iff_exists.mp hvm
          created := fun vm hv => Or.inl hv
          told := by simp }
  | @spin w hp hflag =>
      exact Or.inl ⟨w, _, threadStep_of_phase h (hlt hp (by simp)) (by simp [hp]) (by simp)
        (by simp [hp]) (by simp [BenchWorker.reported, hp])
        (fun _ => hflag.elim Or.inl fun hstop => Or.inr (Or.inl hstop))
        (by simp [BenchWorker.uncounted, hp])⟩
  | @goOn w hp hstop =>
      exact Or.inl ⟨w, _, threadStep_of_phase h (hlt hp (by simp)) (by simp [hp]) (by simp)
        (by simp [hp]) (by simp [BenchWorker.reported, hp])
        (fun _ => Or.inr (Or.inr (by simp [BenchWorker.underway, hp])))
        (by simp [BenchWorker.uncounted, hp])⟩
  | @leave w hp hstop =>
      have hvm := (h.consistent w).running (by simp [hp]) (by simp [hp])
      exact Or.inl ⟨w, _, threadStep_of_phase h (hlt hp (by simp)) (by simp [hp]) (by simp)
        (by simp) (by simp [BenchWorker.reported, hp, hvm]) (by simp [BenchWorker.underway])
        (by simp [BenchWorker.uncounted, hp])⟩
  | @hashed w vm filled hp hvm =>
      refine Or.inl ⟨w,
        { s.workers w with phase := .adding, blobs := filled.1, nonce := filled.2 }, ?_⟩
      exact
        { workers := rfl, main := rfl, start := rfl, stop := rfl, dataset := rfl
          lt := hlt hp (by simp)
          running := by simp [hp]
          consistent := ⟨by simp, fun _ _ => by simp [hvm]⟩
          ready := by simp [BenchWorker.reported, hp, Benchmark.setWorker]
          reported := by simp [BenchWorker.reported, hp]
          underway := fun _ => Or.inr (Or.inr (by simp [BenchWorker.underway, hp]))
          counted := ⟨0, by simp [Benchmark.setWorker],
            by simp [BenchWorker.uncounted, hp, BenchObs.isHashed]⟩
          seen := by simp [BenchWorker.underway, hp, hvm]
          created := fun vm hv => Or.inl hv
          told := fun _ => Or.inl (by simp [BenchWorker.reported, hp]) }
  | @add w hp =>
      have hvm := (h.consistent w).running (by simp [hp]) (by simp [hp])
      refine Or.inl ⟨w, { s.workers w with phase := .looping }, ?_⟩
      exact
        { workers := rfl, main := rfl, start := rfl, stop := rfl, dataset := rfl
          lt := hlt hp (by simp)
          running := by simp [hp]
          consistent := ⟨by simp, fun _ _ => hvm⟩
          ready := by simp [BenchWorker.reported, hp, Benchmark.setWorker]
          reported := by simp [BenchWorker.reported, hp]
          underway := fun _ => Or.inr (Or.inr (by simp [BenchWorker.underway, hp]))
          counted := ⟨1, rfl, by simp [BenchWorker.uncounted, hp]⟩
          seen := by simp
          created := fun vm hv => Or.inl hv
          told := fun _ => Or.inl (by simp [BenchWorker.reported, hp]) }
  | started hm hready => exact Or.inr (.started hm hready)
  | wake hm => exact Or.inr (.wake hm)
  | joined hm hnext hp => exact Or.inr (.joined hm hnext hp)
  | finished hm hnext => exact Or.inr (.finished hm hnext)

theorem ThreadStep.sum {w : Nat} {worker : BenchWorker} (h : ThreadStep t s s' os w worker)
    (f : BenchWorker → Nat) : s'.sum t f + f (s.workers w) = s.sum t f + f worker := by
  have hsum := sum_setWorker (s := s) h.lt worker f
  rw [Benchmark.sum, h.workers]
  exact hsum

theorem ThreadStep.cases {w : Nat} {worker : BenchWorker} (h : ThreadStep t s s' os w worker)
    (v : Nat) : v = w ∧ s'.workers v = worker ∨ v ≠ w ∧ s'.workers v = s.workers v := by
  rw [h.workers]
  by_cases hv : v = w
  · exact Or.inl ⟨hv, by simp [Benchmark.setWorker, hv]⟩
  · exact Or.inr ⟨hv, by simp [Benchmark.setWorker, hv]⟩

end Steps

/-! ## The invariant -/

def BenchMain.begun : BenchMain → Bool
  | .waiting => false
  | _ => true

def BenchMain.ending : BenchMain → Bool
  | .waiting | .sleeping => false
  | _ => true

/-- How many steps the caller is from its return. -/
def BenchMain.rank (n : Nat) : BenchMain → Nat
  | .waiting => n + 3
  | .sleeping => n + 2
  | .joining next => n - next + 1
  | .finished _ => 0

structure BenchInv (t : UInt32) (s : Benchmark) (tr : List BenchObs) : Prop where
  known : ThreadsKnown t s
  dataset : randomxApplyConfig s.dataset.algo = true
  ready : s.readyWorkers = s.sum t BenchWorker.reported
  started : s.start = s.main.begun
  stopped : s.stop = s.main.ending
  begun : s.start = true → ∀ w < benchThreads t, (s.workers w).reported = 1
  early : s.start = false → ∀ w, (s.workers w).underway = false
  joined : ∀ next, s.main = .joining next →
    ∀ w < next, w < benchThreads t → (s.workers w).phase = .exited
  ended : ∀ hashes, s.main = .finished hashes →
    hashes = s.totalHashes ∧ ∀ w < benchThreads t, (s.workers w).phase = .exited
  counted : ∃ added, s.totalHashes = UInt64.ofNat (16 * added) ∧
    added + s.sum t BenchWorker.uncounted = tr.countP BenchObs.isHashed
  announced : s.start = true → .started ∈ tr
  created : ∀ w vm, (s.workers w).vm = some vm → .vmCreated w vm ∈ tr
  told : ∀ w, (s.workers w).reported = 1 → .reported w ∈ tr

/-- A batch is hashed with the thread's own VM, and when the start was announced; it is
announced when every thread has reported, and a thread reports when it has a VM. -/
def BenchReason (t : UInt32) (pre : List BenchObs) : BenchObs → Prop
  | .hashed w vm _ => .started ∈ pre ∧ .vmCreated w vm ∈ pre
  | .started => ∀ w < benchThreads t, .reported w ∈ pre ∧ ∃ vm, .vmCreated w vm ∈ pre
  | .reported w => ∃ vm, .vmCreated w vm ∈ pre
  | _ => True

section Invariant

variable {t : UInt32} {s s' : Benchmark} {tr os : List BenchObs} {i : BenchInput}

/-- The caller sets `stop` after `start`. -/
theorem BenchInv.start_of_stop (h : BenchInv t s tr) (hstop : s.stop = true) :
    s.start = true := by
  rw [h.stopped] at hstop
  rw [h.started]
  cases hm : s.main <;> first | rfl | simp [hm, BenchMain.ending] at hstop

theorem BenchInv.start_of_underway (h : BenchInv t s tr) {w : Nat}
    (hw : (s.workers w).underway = true) : s.start = true := by
  by_contra hstart
  have hnot := h.early (Bool.eq_false_iff.mpr hstart) w
  rw [hw] at hnot
  cases hnot

theorem inv_threadStep {w : Nat} {worker : BenchWorker} (h : BenchInv t s tr)
    (hs : ThreadStep t s s' os w worker) : BenchInv t s' (tr ++ os) where
  known := by
    refine ⟨fun v => ?_, fun v => ?_⟩
    · rcases hs.cases v with ⟨rfl, hv⟩ | ⟨_, hv⟩
      · rw [hv]
        exact hs.consistent
      · rw [hv]
        exact h.known.consistent v
    · rcases hs.cases v with ⟨rfl, _⟩ | ⟨_, hv⟩
      · exact fun _ => hs.lt
      · rw [hv]
        exact h.known.spawned v
  dataset := hs.dataset ▸ h.dataset
  ready := by
    have hsum := hs.sum BenchWorker.reported
    have hready := hs.ready
    have hold := h.ready
    omega
  started := by rw [hs.start, hs.main, h.started]
  stopped := by rw [hs.stop, hs.main, h.stopped]
  begun := by
    intro hstart v hv
    rw [hs.start] at hstart
    have hold := h.begun hstart v hv
    rcases hs.cases v with ⟨rfl, heq⟩ | ⟨_, heq⟩
    · rw [heq]
      exact Nat.le_antisymm (reported_le_one worker) (hold ▸ hs.reported)
    · rw [heq]
      exact hold
  early := by
    intro hstart v
    rw [hs.start] at hstart
    rcases hs.cases v with ⟨rfl, heq⟩ | ⟨_, heq⟩
    · rw [heq, Bool.eq_false_iff]
      intro hunder
      have hset : s.start = true := by
        rcases hs.underway hunder with hset | hstop | hbefore
        · exact hset
        · exact h.start_of_stop hstop
        · exact h.start_of_underway hbefore
      rw [hset] at hstart
      cases hstart
    · rw [heq]
      exact h.early hstart v
  joined := by
    intro next hm v hnext hv
    rw [hs.main] at hm
    have hexited := h.joined next hm v hnext hv
    rcases hs.cases v with ⟨rfl, _⟩ | ⟨_, heq⟩
    · exact absurd hexited hs.running
    · rw [heq]
      exact hexited
  ended := by
    intro hashes hm
    rw [hs.main] at hm
    exact absurd ((h.ended hashes hm).2 w hs.lt) hs.running
  counted := by
    obtain ⟨added, htotal, hadded⟩ := h.counted
    obtain ⟨more, hmore, hcount⟩ := hs.counted
    have hsum := hs.sum BenchWorker.uncounted
    refine ⟨added + more, ?_, ?_⟩
    · rw [hmore, htotal, Nat.mul_add, UInt64.ofNat_add]
    · rw [List.countP_append]
      omega
  announced := fun hstart => List.mem_append_left _ (h.announced (hs.start ▸ hstart))
  created := by
    intro v vm hvm
    rcases hs.cases v with ⟨rfl, heq⟩ | ⟨_, heq⟩
    · rw [heq] at hvm
      rcases hs.created vm hvm with hbefore | hnow
      · exact List.mem_append_left _ (h.created v vm hbefore)
      · exact List.mem_append_right _ hnow
    · exact List.mem_append_left _ (h.created v vm (heq ▸ hvm))
  told := by
    intro v hv
    rcases hs.cases v with ⟨rfl, heq⟩ | ⟨_, heq⟩
    · rw [heq] at hv
      rcases hs.told hv with hbefore | hnow
      · exact List.mem_append_left _ (h.told v hbefore)
      · exact List.mem_append_right _ hnow
    · exact List.mem_append_left _ (h.told v (heq ▸ hv))

theorem inv_callerStep (h : BenchInv t s tr) (hs : CallerStep t s s' os) :
    BenchInv t s' (tr ++ os) := by
  have hcreated : ∀ {os : List BenchObs} w vm, (s.workers w).vm = some vm →
      .vmCreated w vm ∈ tr ++ os := fun w vm hvm => List.mem_append_left _ (h.created w vm hvm)
  have htold : ∀ {os : List BenchObs} w, (s.workers w).reported = 1 → .reported w ∈ tr ++ os :=
    fun w hone => List.mem_append_left _ (h.told w hone)
  have hcounted : ∀ {os : List BenchObs}, os.countP BenchObs.isHashed = 0 →
      ∃ added, s.totalHashes = UInt64.ofNat (16 * added) ∧
        added + s.sum t BenchWorker.uncounted = (tr ++ os).countP BenchObs.isHashed := by
    intro os hos
    rw [List.countP_append, hos, Nat.add_zero]
    exact h.counted
  cases hs with
  | started hm hready =>
      have hall : ∀ w < benchThreads t, (s.workers w).reported = 1 := fun w hw =>
        eq_one_of_sum reported_le_one (h.ready ▸ hready) hw
      exact
        { known := ⟨h.known.consistent, h.known.spawned⟩
          dataset := h.dataset, ready := h.ready, started := rfl
          stopped := by rw [h.stopped, hm]; rfl
          begun := fun _ => hall
          early := fun hstart => by cases hstart
          joined := fun _ hm => by cases hm
          ended := fun _ hm => by cases hm
          counted := hcounted rfl
          announced := fun _ => by simp
          created := hcreated, told := htold }
  | wake hm =>
      exact
        { known := ⟨h.known.consistent, h.known.spawned⟩
          dataset := h.dataset, ready := h.ready
          started := by rw [h.started, hm]; rfl
          stopped := rfl
          begun := h.begun, early := h.early
          joined := fun next hm w hw => by cases hm; exact absurd hw (Nat.not_lt_zero w)
          ended := fun _ hm => by cases hm
          counted := hcounted rfl
          announced := fun hstart => List.mem_append_left _ (h.announced hstart)
          created := hcreated, told := htold }
  | @joined next hm hnext hp =>
      exact
        { known := ⟨h.known.consistent, h.known.spawned⟩
          dataset := h.dataset, ready := h.ready
          started := by rw [h.started, hm]; rfl
          stopped := by rw [h.stopped, hm]; rfl
          begun := h.begun, early := h.early
          joined := by
            intro k hk w hw hlt
            cases hk
            rcases Nat.lt_succ_iff_lt_or_eq.mp hw with hw | rfl
            · exact h.joined next hm w hw hlt
            · exact hp
          ended := fun _ hm => by cases hm
          counted := hcounted rfl
          announced := fun hstart => List.mem_append_left _ (h.announced hstart)
          created := hcreated, told := htold }
  | @finished next hm hnext =>
      exact
        { known := ⟨h.known.consistent, h.known.spawned⟩
          dataset := h.dataset, ready := h.ready
          started := by rw [h.started, hm]; rfl
          stopped := by rw [h.stopped, hm]; rfl
          begun := h.begun, early := h.early
          joined := fun _ hm => by cases hm
          ended := by
            intro hashes heq
            cases heq
            exact ⟨rfl, fun w hw => h.joined next hm w (Nat.lt_of_lt_of_le hw hnext) hw⟩
          counted := hcounted rfl
          announced := fun hstart => List.mem_append_left _ (h.announced hstart)
          created := hcreated, told := htold }

theorem inv_benchStep (h : BenchInv t s tr) (hs : benchStep t s i = some (s', os)) :
    BenchInv t s' (tr ++ os) := by
  rcases step_cases h.known hs with ⟨w, worker, hthread⟩ | hcaller
  · exact inv_threadStep h hthread
  · exact inv_callerStep h hcaller

/-- The observations of a step have their reasons. -/
theorem benchReason_step (h : BenchInv t s tr) (hs : benchStep t s i = some (s', os)) :
    ∀ pre x post, os = pre ++ x :: post → BenchReason t (tr ++ pre) x := by
  intro pre x post heq
  have hmem : ∀ {o}, o ∈ tr → o ∈ tr ++ pre := fun ho => List.mem_append_left _ ho
  have hx : x ∈ os := by simp [heq]
  rcases step_cases h.known hs with ⟨w, worker, hthread⟩ | hcaller
  · rcases hthread.seen x hx with ⟨vm, rfl⟩ | ⟨rfl, vm, hvm⟩ | ⟨vm, inputs, rfl, hvm, hunder⟩
    · trivial
    · exact ⟨vm, hmem (h.created w vm hvm)⟩
    · exact ⟨hmem (h.announced (h.start_of_underway hunder)), hmem (h.created w vm hvm)⟩
  · cases hcaller with
    | started hm hready =>
        obtain rfl := List.mem_singleton.mp hx
        intro w hw
        have hreported := eq_one_of_sum reported_le_one (h.ready ▸ hready) hw
        -- who has reported has a VM
        have hsome : (s.workers w).vm.isSome = true := by
          cases hvm : (s.workers w).vm with
          | some _ => rfl
          | none =>
              have hrunning := (h.known.consistent w).running
              cases hp : (s.workers w).phase <;>
                simp [BenchWorker.reported, hp, hvm] at hreported hrunning
        obtain ⟨vm, hvm⟩ := Option.isSome_iff_exists.mp hsome
        exact ⟨hmem (h.told w hreported), vm, hmem (h.created w vm hvm)⟩
    | wake _ =>
        obtain rfl := List.mem_singleton.mp hx
        trivial
    | joined _ _ _ => cases hx
    | finished _ _ => cases hx

/-- A benchmark that is about to begin. -/
theorem inv_new {available : Bool} (h : Benchmark.new available = some s) :
    BenchInv t s [] := by
  obtain ⟨dataset, hdataset, rfl⟩ := Option.map_eq_some_iff.mp h
  have halgo : randomxApplyConfig dataset.algo = true := by
    unfold Dataset.newForAlgo at hdataset
    split at hdataset
    · cases hdataset
    · split at hdataset
      · cases hdataset
      · split at hdataset
        · cases hdataset
          rfl
        · cases hdataset
  exact
    { known := ⟨fun _ => ⟨fun _ => rfl, fun hne => absurd rfl hne⟩,
        fun _ hne => absurd rfl hne⟩
      dataset := halgo
      ready := by simp [Benchmark.sum, BenchWorker.new, BenchWorker.reported]
      started := rfl, stopped := rfl
      begun := fun hstart => by cases hstart
      early := fun _ _ => rfl
      joined := fun _ hm => by cases hm
      ended := fun _ hm => by cases hm
      counted := ⟨0, rfl, by simp [Benchmark.sum, BenchWorker.new, BenchWorker.uncounted]⟩
      announced := fun hstart => by cases hstart
      created := fun _ _ hvm => by cases hvm
      told := fun _ hone => by cases hone }

theorem inv_of_benchRun {available : Bool} {s₀ : Benchmark} {is : List BenchInput}
    (hnew : Benchmark.new available = some s₀)
    (h : Run (benchStep t) (fun _ _ => True) s₀ is s tr) : BenchInv t s tr :=
  h.invariant (inv_new hnew) fun hinv _ hs => inv_benchStep hinv hs

end Invariant

/-! ## What is measured -/

/-- The result of a benchmark: all threads have hashed with VMs of their own and have
stopped, none hashed before all of them were ready, and the count is sixteen for every batch
of the run. -/
theorem benchmark_counts {t : UInt32} {available : Bool} {s₀ s : Benchmark}
    {is : List BenchInput} {tr : List BenchObs} {hashes : UInt64}
    (hnew : Benchmark.new available = some s₀)
    (h : Run (benchStep t) (fun _ _ => True) s₀ is s tr) (hm : s.main = .finished hashes) :
    hashes = UInt64.ofNat (16 * tr.countP BenchObs.isHashed) ∧
      (∀ w < benchThreads t, (s.workers w).phase = .exited ∧ (s.workers w).vm.isSome = true) ∧
      Justified (BenchReason t) tr := by
  have hinv := inv_of_benchRun hnew h
  obtain ⟨rfl, hexited⟩ := hinv.ended hashes hm
  have hstart : s.start = true := by rw [hinv.started, hm]; rfl
  refine ⟨?_, fun w hw => ⟨hexited w hw, ?_⟩, ?_⟩
  · obtain ⟨added, htotal, hadded⟩ := hinv.counted
    have hnone : s.sum t BenchWorker.uncounted = 0 := by
      refine Finset.sum_eq_zero fun w hw => ?_
      simp [BenchWorker.uncounted, hexited w (Finset.mem_range.mp hw)]
    rw [htotal, ← hadded, hnone, Nat.add_zero]
  · have hreported := hinv.begun hstart w hw
    simp only [BenchWorker.reported, hexited w hw] at hreported
    split at hreported
    · assumption
    · cases hreported
  · exact h.justified fun hrun _ hs => benchReason_step (inv_of_benchRun hnew hrun) hs

def sampleBenchmark : Benchmark :=
  { dataset := { algo := "rx/0", seed := List.replicate 32 0 }, start := false, stop := false
    readyWorkers := 0, totalHashes := 0, workers := .new, main := .waiting }

theorem new_sampleBenchmark : Benchmark.new true = some sampleBenchmark := rfl

/-- One thread, which hashes two batches. -/
def twoBatches : List BenchInput :=
  [.createVm 0 true, .report 0, .poll, .spin 0, .check 0, .hash 0, .add 0, .check 0, .wake,
    .hash 0, .add 0, .check 0, .join, .join]

theorem benchmark_counts_two :
    ∃ s tr, Run (benchStep 1) (fun _ _ => True) sampleBenchmark twoBatches s tr ∧
      tr.countP BenchObs.isHashed = 2 ∧ s.main = .finished 32 := by
  have hexec : (exec (benchStep 1) sampleBenchmark twoBatches).any (fun r =>
      r.1.main.ending && r.1.main.rank 1 == 0 && r.2.countP BenchObs.isHashed == 2) = true := by
    decide +kernel
  obtain ⟨s, tr, hrun, htest⟩ := anyRun_of_exec_test (p := fun (s : Benchmark)
    (tr : List BenchObs) =>
      s.main.ending && s.main.rank 1 == 0 && tr.countP BenchObs.isHashed == 2) hexec
  simp only [Bool.and_eq_true, beq_iff_eq] at htest
  obtain ⟨⟨_, hrank⟩, htwo⟩ := htest
  cases hm : s.main with
  | finished hashes =>
      obtain ⟨hcount, -⟩ := benchmark_counts new_sampleBenchmark hrun hm
      rw [htwo] at hcount
      exact ⟨s, tr, hrun, htwo, by rw [hm, hcount]; rfl⟩
  | _ => simp [hm, BenchMain.rank] at hrank

/-! ## Coming back -/

section Progress

variable {t : UInt32} {s s' : Benchmark} {tr os : List BenchObs} {i : BenchInput}

/-- How many steps of its own a thread is from its return. -/
def BenchWorker.rank (worker : BenchWorker) : Nat :=
  match worker.phase with
  | .starting => 6
  | .created => 5
  | .spinning => 4
  | .hashing => 3
  | .adding => 2
  | .looping => 1
  | .exited => 0

def Benchmark.rank (t : UInt32) (s : Benchmark) : Nat :=
  s.sum t BenchWorker.rank + s.main.rank (benchThreads t)

/-- No thread has given up, and the invariant holds with some trace. -/
def Hopeful (t : UInt32) (s : Benchmark) : Prop :=
  (∃ tr, BenchInv t s tr) ∧ ∀ w < benchThreads t, ¬ (s.workers w).GaveUp

/-- The end is nearer when a thread is nearer to its return. -/
theorem rank_lt_of_thread {w : Nat} {worker : BenchWorker} (hw : w < benchThreads t)
    (hworkers : s'.workers = (s.setWorker w worker).workers) (hmain : s'.main = s.main)
    (hless : worker.rank < (s.workers w).rank) : s'.rank t < s.rank t := by
  have hsum := sum_setWorker (s := s) hw worker BenchWorker.rank
  have heq : s'.sum t BenchWorker.rank = (s.setWorker w worker).sum t BenchWorker.rank := by
    rw [Benchmark.sum, hworkers, Benchmark.sum]
  rw [Benchmark.rank, Benchmark.rank, hmain]
  omega

/-- A thread that has not reported, or that has been told to stop, can go on towards its
return. -/
theorem exists_thread_step (h : BenchInv t s tr) {w : Nat} (hw : w < benchThreads t)
    (hp : (s.workers w).phase ≠ .exited)
    (hgo : s.stop = true ∨ (s.workers w).reported = 0) :
    ∃ i s' os worker, benchStep t s i = some (s', os) ∧
      s'.workers = (s.setWorker w worker).workers ∧ s'.main = s.main ∧
      worker.rank < (s.workers w).rank ∧ ¬ worker.GaveUp := by
  have hstop : (s.workers w).reported = 1 → s.stop = true := fun hone =>
    hgo.resolve_right (by omega)
  have hvm := fun hne => (h.known.consistent w).running hne hp
  cases hphase : (s.workers w).phase with
  | starting =>
      have hnew : Vm.new s.dataset true = some { dataset := s.dataset } := by
        simp [Vm.new, h.dataset]
      exact ⟨.createVm w true,
        s.setWorker w { s.workers w with phase := .created, vm := some ⟨s.dataset⟩ },
        [.vmCreated w ⟨s.dataset⟩],
        { s.workers w with phase := .created, vm := some ⟨s.dataset⟩ },
        by simp only [benchStep, if_pos (And.intro hw hphase), hnew], rfl, rfl,
        by simp [BenchWorker.rank, hphase], by simp [BenchWorker.GaveUp]⟩
  | created =>
      exact ⟨.report w, { s.setWorker w { s.workers w with phase := .spinning } with
          readyWorkers := s.readyWorkers + 1 }, [.reported w],
        { s.workers w with phase := .spinning },
        by simp only [benchStep, if_pos hphase], rfl, rfl,
        by simp [BenchWorker.rank, hphase], by simp [BenchWorker.GaveUp]⟩
  | spinning =>
      have hset := hstop (by simp [BenchWorker.reported, hphase])
      exact ⟨.spin w, s.setWorker w { s.workers w with phase := .looping }, [],
        { s.workers w with phase := .looping },
        by simp only [benchStep, if_pos (And.intro hphase (Or.inr hset))], rfl, rfl,
        by simp [BenchWorker.rank, hphase], by simp [BenchWorker.GaveUp]⟩
  | looping =>
      have hset := hstop (by simp [BenchWorker.reported, hphase])
      have hsome := hvm (by simp [hphase])
      refine ⟨.check w, s.setWorker w { s.workers w with phase := .exited }, [],
        { s.workers w with phase := .exited },
        by simp only [benchStep, if_pos hphase, hset, if_true], rfl, rfl,
        by simp [BenchWorker.rank, hphase], ?_⟩
      rintro ⟨_, hnone⟩
      rw [hnone] at hsome
      cases hsome
  | hashing =>
      obtain ⟨vm, hsome⟩ := Option.isSome_iff_exists.mp (hvm (by simp [hphase]))
      obtain ⟨filled, hfilled⟩ : ∃ filled, filled =
          fillBlobs (UInt32.ofNat (benchThreads t)) (s.workers w).nonce (s.workers w).blobs :=
        ⟨_, rfl⟩
      exact ⟨.hash w, s.setWorker w
          { s.workers w with phase := .adding, blobs := filled.1, nonce := filled.2 },
        [.hashed w vm filled.1],
        { s.workers w with phase := .adding, blobs := filled.1, nonce := filled.2 },
        by simp only [benchStep, hphase, hsome, hfilled], rfl, rfl,
        by simp [BenchWorker.rank, hphase], by simp [BenchWorker.GaveUp]⟩
  | adding =>
      exact ⟨.add w, { s.setWorker w { s.workers w with phase := .looping } with
          totalHashes := s.totalHashes + 16 }, [], { s.workers w with phase := .looping },
        by simp only [benchStep, if_pos hphase], rfl, rfl,
        by simp [BenchWorker.rank, hphase], by simp [BenchWorker.GaveUp]⟩
  | exited => exact absurd hphase hp

/-- A step of the caller keeps the threads. -/
theorem hopeful_of_workers (h : Hopeful t s) (hs : benchStep t s i = some (s', os))
    (hworkers : s'.workers = s.workers) : Hopeful t s' := by
  obtain ⟨⟨tr, hinv⟩, hno⟩ := h
  exact ⟨⟨_, inv_benchStep hinv hs⟩, fun w hw => by rw [hworkers]; exact hno w hw⟩

/-- Some step brings the end nearer. -/
theorem exists_nearer (h : Hopeful t s) :
    (∃ hashes, s.main = .finished hashes) ∨ ∃ i s' os, True ∧
      benchStep t s i = some (s', os) ∧ Hopeful t s' ∧ s'.rank t < s.rank t := by
  obtain ⟨⟨tr, hinv⟩, hno⟩ := h
  have hthread : ∀ w < benchThreads t, (s.workers w).phase ≠ .exited →
      s.stop = true ∨ (s.workers w).reported = 0 → ∃ i s' os, True ∧
        benchStep t s i = some (s', os) ∧ Hopeful t s' ∧ s'.rank t < s.rank t := by
    intro w hw hp hgo
    obtain ⟨i, s', os, worker, hs, hworkers, hmain, hless, hgood⟩ :=
      exists_thread_step hinv hw hp hgo
    refine ⟨i, s', os, trivial, hs, ⟨⟨_, inv_benchStep hinv hs⟩, fun v hv => ?_⟩,
      rank_lt_of_thread hw hworkers hmain hless⟩
    rw [hworkers]
    by_cases hvw : v = w
    · simpa [Benchmark.setWorker, hvw] using hgood
    · simpa [Benchmark.setWorker, hvw] using hno v hv
  have hcaller : ∀ i s' os, benchStep t s i = some (s', os) → s'.workers = s.workers →
      s'.main.rank (benchThreads t) < s.main.rank (benchThreads t) → ∃ i s' os, True ∧
        benchStep t s i = some (s', os) ∧ Hopeful t s' ∧ s'.rank t < s.rank t := by
    intro i s' os hs hworkers hless
    refine ⟨i, s', os, trivial, hs, hopeful_of_workers ⟨⟨tr, hinv⟩, hno⟩ hs hworkers, ?_⟩
    have hsum : s'.sum t BenchWorker.rank = s.sum t BenchWorker.rank := by
      rw [Benchmark.sum, hworkers, Benchmark.sum]
    rw [Benchmark.rank, Benchmark.rank, hsum]
    omega
  cases hm : s.main with
  | finished hashes => exact Or.inl ⟨hashes, rfl⟩
  | sleeping =>
      exact Or.inr (hcaller .wake { s with stop := true, main := .joining 0 } [.stopped]
        (by simp only [benchStep, hm]) rfl (by simp only [hm, BenchMain.rank]; omega))
  | waiting =>
      by_cases hready : s.readyWorkers < benchThreads t
      · -- some thread has not reported yet
        obtain ⟨w, hw, hzero⟩ : ∃ w < benchThreads t, (s.workers w).reported = 0 := by
          by_contra hall
          have hsum : s.sum t BenchWorker.reported = benchThreads t := by
            rw [Benchmark.sum, Finset.sum_const_nat (m := 1), Finset.card_range, Nat.mul_one]
            intro w hw
            have hne : (s.workers w).reported ≠ 0 := fun hzero =>
              hall ⟨w, Finset.mem_range.mp hw, hzero⟩
            have hle := reported_le_one (s.workers w)
            omega
          rw [hinv.ready, hsum] at hready
          exact Nat.lt_irrefl _ hready
        have hp : (s.workers w).phase ≠ .exited := by
          intro hp
          cases hvm : (s.workers w).vm with
          | none => exact hno w hw ⟨hp, hvm⟩
          | some vm => simp [BenchWorker.reported, hp, hvm] at hzero
        exact Or.inr (hthread w hw hp (Or.inr hzero))
      · exact Or.inr (hcaller .poll { s with start := true, main := .sleeping } [.started]
          (by simp only [benchStep, hm, if_neg hready]) rfl
          (by simp only [hm, BenchMain.rank]; omega))
  | joining next =>
      have hstop : s.stop = true := by rw [hinv.stopped, hm]; rfl
      by_cases hnext : next < benchThreads t
      · by_cases hp : (s.workers next).phase = .exited
        · exact Or.inr (hcaller .join { s with main := .joining (next + 1) } []
            (by simp only [benchStep, hm, if_pos hnext, if_pos hp]) rfl
            (by simp only [hm, BenchMain.rank]; omega))
        · exact Or.inr (hthread next hnext hp (Or.inl hstop))
      · exact Or.inr (hcaller .join { s with main := .finished s.totalHashes } []
          (by simp only [benchStep, hm, if_neg hnext]) rfl
          (by simp only [hm, BenchMain.rank]; omega))

theorem gaveUp_step (h : BenchInv t s tr) (hs : benchStep t s i = some (s', os)) {w : Nat}
    (hw : (s.workers w).GaveUp) : (s'.workers w).GaveUp := by
  rcases step_cases h.known hs with ⟨v, worker, hthread⟩ | hcaller
  · rcases hthread.cases w with ⟨rfl, _⟩ | ⟨_, heq⟩
    · exact absurd hw.1 hthread.running
    · rw [heq]
      exact hw
  · cases hcaller <;> exact hw

end Progress

/-- From every state that can be reached, the benchmark can still come back if and only if no
thread has given up: the caller waits for all of them to report, and one that has no VM does
not. -/
theorem benchmark_returns_iff {t : UInt32} {available : Bool} {s₀ s : Benchmark}
    {is : List BenchInput} {tr : List BenchObs}
    (hnew : Benchmark.new available = some s₀)
    (h : Run (benchStep t) (fun _ _ => True) s₀ is s tr) :
    (∃ js s' tr' hashes, Run (benchStep t) (fun _ _ => True) s js s' tr' ∧
        s'.main = .finished hashes) ↔
      ∀ w < benchThreads t, ¬ (s.workers w).GaveUp := by
  have hinv := inv_of_benchRun hnew h
  constructor
  · rintro ⟨js, s', tr', hashes, hrun, hm⟩ w hw hgone
    -- it has still given up at the end, where every thread has reported
    have hend : (∃ tr, BenchInv t s' tr) ∧ (s'.workers w).GaveUp :=
      hrun.stateInvariant (P := fun s => (∃ tr, BenchInv t s tr) ∧ (s.workers w).GaveUp)
        ⟨⟨_, hinv⟩, hgone⟩ fun hp _ hs =>
          let ⟨⟨_, hinv⟩, hgone⟩ := hp
          ⟨⟨_, inv_benchStep hinv hs⟩, gaveUp_step hinv hs hgone⟩
    obtain ⟨⟨_, hinv'⟩, hgone'⟩ := hend
    have hstart : s'.start = true := by rw [hinv'.started, hm]; rfl
    have hreported := hinv'.begun hstart w hw
    rw [reported_of_gaveUp hgone'] at hreported
    cases hreported
  · intro hno
    have hleads : Leads (benchStep t) (fun _ _ => True) (Hopeful t)
        fun s => ∃ hashes, s.main = .finished hashes :=
      Leads.of_measure (Benchmark.rank t) fun _ hs => exists_nearer hs
    obtain ⟨js, s', tr', hrun, hashes, hm⟩ := hleads s ⟨⟨_, hinv⟩, hno⟩
    exact ⟨js, s', tr', hashes, hrun, hm⟩

/-- Two threads, one of which has no VM: the caller waits for ever. -/
theorem benchmark_returns_iff_gaveUp :
    ∃ s tr, Run (benchStep 2) (fun _ _ => True) sampleBenchmark
        [.createVm 0 true, .report 0, .createVm 1 false] s tr ∧
      ¬ ∃ js s' tr' hashes, Run (benchStep 2) (fun _ _ => True) s js s' tr' ∧
        s'.main = .finished hashes := by
  have hexec : (exec (benchStep 2) sampleBenchmark
      [.createVm 0 true, .report 0, .createVm 1 false]).any (fun r =>
        (r.1.workers 1).phase == .exited && (r.1.workers 1).vm.isNone) = true := by
    decide +kernel
  obtain ⟨s, tr, hrun, htest⟩ := anyRun_of_exec_test (p := fun (s : Benchmark)
    (_ : List BenchObs) => (s.workers 1).phase == .exited && (s.workers 1).vm.isNone) hexec
  simp only [Bool.and_eq_true, beq_iff_eq, Option.isNone_iff_eq_none] at htest
  refine ⟨s, tr, hrun, fun hback => ?_⟩
  exact (benchmark_returns_iff new_sampleBenchmark hrun).mp hback 1 (by decide) htest

end LiteXmr
