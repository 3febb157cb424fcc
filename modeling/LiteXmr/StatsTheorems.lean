/-
LiteXmr.StatsTheorems — the hash rate is that of windows which follow each
other.

However the threads interleave, the counter is the sum of what was added
(`Tallied.total`), and each rate is that of a window of at least a second that
begins with the sample before (`WindowLaw`). So no hash is counted in two windows
and none between two is left out: the first sample, the windows and what came
after the last one add up to the counter (`hashrate_windows`). The subtraction
of the counts never wraps. All this is as long as the counter has not wrapped.
-/
import Mathlib.Algebra.Ring.Nat
import LiteXmr.Stats

namespace LiteXmr

open Lts

/-! ## What a trace tells -/

namespace RecordObs

def count : RecordObs → Nat
  | .added _ count => count.toNat
  | _ => 0

/-- The hashes that a sample takes in. -/
def sampled : RecordObs → Nat
  | .first sample => sample.hashes.toNat
  | .window before after _ => after.hashes.toNat - before.hashes.toNat
  | .added _ _ => 0

def sample? : RecordObs → Option Sample
  | .first sample | .window _ sample _ => some sample
  | .added _ _ => none

def hashrate? : RecordObs → Option UInt64
  | .window _ _ hashrate => some hashrate
  | _ => none

end RecordObs

def addedHashes (tr : List RecordObs) : Nat := (tr.map RecordObs.count).sum

def sampledHashes (tr : List RecordObs) : Nat := (tr.map RecordObs.sampled).sum

def lastSample (tr : List RecordObs) : Option Sample := (tr.filterMap RecordObs.sample?).getLast?

def lastHashrate (tr : List RecordObs) : Option UInt64 :=
  (tr.filterMap RecordObs.hashrate?).getLast?

section

variable {tr : List RecordObs} {o : RecordObs}

theorem addedHashes_append (tr os : List RecordObs) :
    addedHashes (tr ++ os) = addedHashes tr + addedHashes os := by
  simp [addedHashes]

theorem addedHashes_snoc : addedHashes (tr ++ [o]) = addedHashes tr + o.count := by
  simp [addedHashes]

theorem sampledHashes_snoc : sampledHashes (tr ++ [o]) = sampledHashes tr + o.sampled := by
  simp [sampledHashes]

theorem lastSample_snoc : lastSample (tr ++ [o]) = o.sample?.or (lastSample tr) := by
  cases h : o.sample? <;> simp [lastSample, List.filterMap_append, h]

theorem lastHashrate_snoc : lastHashrate (tr ++ [o]) = o.hashrate?.or (lastHashrate tr) := by
  cases h : o.hashrate? <;> simp [lastHashrate, List.filterMap_append, h]

end

/-! ## Windows -/

/-- A window, given what came before it. -/
structure WindowLaw (rate : UInt64 → Nat → UInt64) (pre : List RecordObs)
    (before after : Sample) (hashrate : UInt64) : Prop where
  begins : lastSample pre = some before
  long : before.time + nanosPerSec ≤ after.time
  grows : before.hashes.toNat ≤ after.hashes.toNat
  /-- All that was added so far. -/
  counts : after.hashes.toNat = addedHashes pre
  rate : hashrate = rate (after.hashes - before.hashes) (after.time - before.time)

structure Tallied (rate : UInt64 → Nat → UInt64) (s : Recording) (tr : List RecordObs) :
    Prop where
  total : s.stats.totalHashes.toNat = addedHashes tr
  sampled : s.stats.lastSample.hashes.toNat = sampledHashes tr
  le : sampledHashes tr ≤ addedHashes tr
  last : s.stats.lastSample.hashes ≠ 0 → lastSample tr = some s.stats.lastSample
  hashrate : s.stats.currentHashrate = (lastHashrate tr).getD 0
  windows : Justified (fun pre x => ∀ before after hashrate,
    x = .window before after hashrate → WindowLaw rate pre before after hashrate) tr

section

variable {rate : UInt64 → Nat → UInt64} {s s' : Recording} {tr os : List RecordObs}
  {i : RecordInput}

theorem tallied_start (clock : Nat) : Tallied rate (.start clock) [] where
  total := rfl
  sampled := rfl
  le := Nat.le_refl _
  last h := absurd rfl h
  hashrate := rfl
  windows := justified_nil

/-- A step that neither adds nor samples. -/
theorem Tallied.frame (h : Tallied rate s tr) (hstats : s'.stats = s.stats) :
    Tallied rate s' tr where
  total := by rw [hstats, h.total]
  sampled := by rw [hstats, h.sampled]
  le := h.le
  last := by
    rw [hstats]
    exact h.last
  hashrate := by rw [hstats, h.hashrate]
  windows := h.windows

/-- `fetch_add`, when the counter does not wrap. -/
theorem Tallied.add (h : Tallied rate s tr) {w : Nat} {count : UInt64}
    (hsmall : addedHashes (tr ++ [.added w count]) < 2 ^ 64)
    (hstats : s'.stats = { s.stats with totalHashes := s.stats.totalHashes + count }) :
    Tallied rate s' (tr ++ [.added w count]) where
  total := by
    rw [addedHashes_snoc] at hsmall ⊢
    rw [hstats, UInt64.toNat_add, h.total]
    exact Nat.mod_eq_of_lt hsmall
  sampled := by
    rw [sampledHashes_snoc, hstats, h.sampled]
    rfl
  le := by
    rw [sampledHashes_snoc, addedHashes_snoc]
    exact Nat.le_trans h.le (Nat.le_add_right _ _)
  last hne := by
    rw [lastSample_snoc, hstats]
    rw [hstats] at hne
    exact h.last hne
  hashrate := by
    rw [lastHashrate_snoc, hstats, h.hashrate]
    rfl
  windows := (justified_snoc _ _).mpr ⟨h.windows, fun before after hashrate hx => by cases hx⟩

/-- What is done under the lock. -/
theorem Tallied.sample (h : Tallied rate s tr) (now : Nat)
    (hstats : s'.stats = (s.stats.sample rate now).1) :
    Tallied rate s' (tr ++ (s.stats.sample rate now).2) := by
  have htotal := h.total
  have hsampled := h.sampled
  have hle := h.le
  by_cases hzero : s.stats.lastSample.hashes = 0
  · have hfirst : s.stats.sample rate now =
        ({ s.stats with lastSample := { time := now, hashes := s.stats.totalHashes } },
          [.first { time := now, hashes := s.stats.totalHashes }]) := by
      simp [MiningStats.sample, hzero]
    rw [hfirst] at hstats ⊢
    have hnone : sampledHashes tr = 0 := by
      rw [← hsampled, hzero]
      rfl
    exact
      { total := by rw [addedHashes_snoc, hstats, htotal]; rfl
        sampled := by rw [sampledHashes_snoc, hstats, hnone, Nat.zero_add]; rfl
        le := by
          rw [sampledHashes_snoc, addedHashes_snoc, hnone, ← htotal, Nat.zero_add]
          exact Nat.le_refl _
        last := fun _ => by rw [lastSample_snoc, hstats]; rfl
        hashrate := by rw [lastHashrate_snoc, hstats, h.hashrate]; rfl
        windows := (justified_snoc _ _).mpr
          ⟨h.windows, fun before after hashrate hx => by cases hx⟩ }
  by_cases hlong : nanosPerSec ≤ now - s.stats.lastSample.time
  · have hwindow : s.stats.sample rate now =
        ({ s.stats with
            currentHashrate := rate (s.stats.totalHashes - s.stats.lastSample.hashes)
              (now - s.stats.lastSample.time)
            lastSample := { time := now, hashes := s.stats.totalHashes } },
          [.window s.stats.lastSample { time := now, hashes := s.stats.totalHashes }
            (rate (s.stats.totalHashes - s.stats.lastSample.hashes)
              (now - s.stats.lastSample.time))]) := by
      simp [MiningStats.sample, hzero, hlong]
    rw [hwindow] at hstats ⊢
    have hgrows : s.stats.lastSample.hashes.toNat ≤ s.stats.totalHashes.toNat := by
      rw [htotal, hsampled]
      exact hle
    have hsum : sampledHashes tr +
        (s.stats.totalHashes.toNat - s.stats.lastSample.hashes.toNat) =
          s.stats.totalHashes.toNat := by
      omega
    have hseconds : s.stats.lastSample.time + nanosPerSec ≤ now := by
      simp only [nanosPerSec] at hlong ⊢
      omega
    exact
      { total := by rw [addedHashes_snoc, hstats, htotal]; rfl
        sampled := by rw [sampledHashes_snoc, hstats]; exact hsum.symm
        le := by
          rw [sampledHashes_snoc, addedHashes_snoc, ← htotal]
          exact Nat.le_of_eq hsum
        last := fun _ => by rw [lastSample_snoc, hstats]; rfl
        hashrate := by rw [lastHashrate_snoc, hstats]; rfl
        windows := (justified_snoc _ _).mpr ⟨h.windows, fun before after hashrate hx => by
          cases hx
          exact ⟨h.last hzero, hseconds, hgrows, htotal, rfl⟩⟩ }
  · have hshort : s.stats.sample rate now = (s.stats, []) := by
      simp [MiningStats.sample, hzero, hlong]
    rw [hshort] at hstats ⊢
    rw [List.append_nil]
    exact h.frame hstats

theorem tallied_step (h : Tallied rate s tr) (hsmall : addedHashes (tr ++ os) < 2 ^ 64)
    (hs : recordStep rate s i = some (s', os)) : Tallied rate s' (tr ++ os) := by
  cases i with
  | add w count =>
      simp only [recordStep] at hs
      split at hs
      · cases hs
        exact h.add hsmall rfl
      · cases hs
  | now w =>
      simp only [recordStep] at hs
      split at hs
      · cases hs
        rw [List.append_nil]
        exact h.frame rfl
      · cases hs
  | lock w =>
      simp only [recordStep] at hs
      split at hs
      · next now _ =>
          cases hs
          exact h.sample now rfl
      · cases hs
  | tick elapsed =>
      cases hs
      rw [List.append_nil]
      exact h.frame rfl

theorem tallied_of_run {ok : Recording → RecordInput → Prop} {clock : Nat}
    {is : List RecordInput} (h : Run (recordStep rate) ok (.start clock) is s tr)
    (hsmall : addedHashes tr < 2 ^ 64) : Tallied rate s tr := by
  refine h.invariant (P := fun s tr => addedHashes tr < 2 ^ 64 → Tallied rate s tr)
    (fun _ => tallied_start clock) (fun hp _ hs hless => ?_) hsmall
  rw [addedHashes_append] at hless
  exact tallied_step (hp (by omega)) (by rwa [addedHashes_append]) hs

end

/-- In every run the counter is what was added; the first sample, the windows and what was
added since the last one make it up, and each rate is that of a window. -/
theorem hashrate_windows (rate : UInt64 → Nat → UInt64) {clock : Nat} {is : List RecordInput}
    {s : Recording} {tr : List RecordObs}
    (h : Run (recordStep rate) (fun _ _ => True) (.start clock) is s tr)
    (hsmall : addedHashes tr < 2 ^ 64) :
    s.stats.totalHashes.toNat = addedHashes tr ∧
      sampledHashes tr +
        (s.stats.totalHashes.toNat - s.stats.lastSample.hashes.toNat) = addedHashes tr ∧
      s.stats.currentHashrate = (lastHashrate tr).getD 0 ∧
      Justified (fun pre x => ∀ before after hashrate,
        x = .window before after hashrate → WindowLaw rate pre before after hashrate) tr := by
  have ht : Tallied rate s tr := tallied_of_run h hsmall
  refine ⟨ht.total, ?_, ht.hashrate, ht.windows⟩
  have hle := ht.le
  rw [ht.total, ht.sampled]
  omega

/-- A second of one thread's batches: the first sample and one window. -/
theorem hashrate_windows_second : ∃ is s tr,
    Run (recordStep fun hashes elapsed => hashes * 1000000000 / UInt64.ofNat elapsed)
        (fun _ _ => True) (.start 5) is s tr ∧
      addedHashes tr < 2 ^ 64 ∧ s.stats.currentHashrate = 16 ∧
      sampledHashes tr + (s.stats.totalHashes.toNat - s.stats.lastSample.hashes.toNat) = 48 := by
  have hexec : (exec (recordStep fun hashes elapsed => hashes * 1000000000 / UInt64.ofNat elapsed)
      (.start 5) [.add 0 16, .now 0, .lock 0, .tick 1000000000, .add 0 16, .now 0, .lock 0,
        .add 0 16]).any
      (fun r => decide (addedHashes r.2 = 48 ∧ r.1.stats.currentHashrate = 16)) = true := by
    decide +kernel
  obtain ⟨s, tr, hrun, htest⟩ := anyRun_of_exec_test
    (p := fun (s : Recording) (tr : List RecordObs) =>
      decide (addedHashes tr = 48 ∧ s.stats.currentHashrate = 16)) hexec
  obtain ⟨hadded, hrate⟩ := of_decide_eq_true htest
  have hsmall : addedHashes tr < 2 ^ 64 := by
    rw [hadded]
    decide
  obtain ⟨-, hsum, -, -⟩ := hashrate_windows _ hrun hsmall
  exact ⟨_, s, tr, hrun, hsmall, hrate, hsum.trans hadded⟩

end LiteXmr
