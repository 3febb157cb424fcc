/-
LiteXmr.Miner.Coverage — which nonces the workers of one job hash between
them.

The cursor of worker `w` moves as a `Stride.pos` on a counter modulo `2^32`,
its range is the nonce mask plus one, and a pipeline round is a group of
sixteen: the nonces a worker hashes over all its batches are the `Taken`
positions, merged with the bits of the blob outside the mask
(`mem_fullNonces_iff`). The two laws of the work split follow from the exact
answers for strides.

* `nicehash_coverage_iff` — on a NiceHash job every worker runs out of
  range, and then every nonce of the range has been hashed exactly once
  exactly when the number of threads divides `2^20` (or is `2^32 - 2^20`):
  the last round of a worker is dropped unless it is complete.
* `worker_nonces_disjoint_iff` — two workers never hash the same full nonce
  exactly when, on a NiceHash job, there are at most `2^32 - 2^20` threads,
  and on any other job, the number of threads divides `2^32`: there the
  cursor is never above the mask, so it wraps around.
-/
import Mathlib.Data.List.Nodup
import LiteXmr.Miner.BatchTheorems

namespace LiteXmr

/-- The full nonces of a stretch of mining: what the nonce field of each
hashed blob holds. -/
def Batch.fullNonces (batch : Batch) : List UInt32 := batch.hashed.map nonceField

/-- The part of each full nonce under the NiceHash mask. -/
def Batch.lowNonces (batch : Batch) : List UInt32 :=
  batch.fullNonces.map (· &&& nicehashNonceMask)

/-- Worker `w` after `n` batches on a job it has just adopted. -/
def workerBatches (hash : Bytes → Hash) (job : Job) (T : UInt32) (w n : Nat) : Batch :=
  mineBatches hash job T n (UInt32.ofNat w) (templateBuffers job)

section

variable {hash : Bytes → Hash} {job : Job} {T c : UInt32}

/-! ## The cursor as a position -/

theorem within_iff_runs {k : Nat} :
    Within job T c k
      ↔ Stride.Runs (2 ^ 32) (job.nonceMask.toNat + 1) T.toNat c.toNat k := by
  simp only [Within, Stride.Runs, UInt32.le_iff_toNat_le, toNat_cursorAt, Nat.lt_succ_iff]

theorem toNat_ofNat_worker {w : Nat} (hw : w < T.toNat) : (UInt32.ofNat w).toNat = w := by
  have := T.toNat_lt
  rw [UInt32.toNat_ofNat', Nat.mod_eq_of_lt (by omega)]

/-- The full nonce of a slot. -/
theorem nonceField_slotAt (hlen : 43 ≤ job.blobBytes.length) (j : Nat) :
    nonceField (slotAt job T c j).1
      = mergeNonce (nonceField job.blobBytes) (cursorAt T c j) job.nonceMask := by
  rw [slotAt, fillSlot_of_le hlen, nonceField_stamp hlen]

theorem Swept.fullNonces_eq {limit q : Nat} {batch : Batch}
    (hlen : 43 ≤ job.blobBytes.length) (h : Swept hash job T limit q c batch) :
    batch.fullNonces = (List.range (pipelineSize * q)).map fun j =>
      mergeNonce (nonceField job.blobBytes) (cursorAt T c j) job.nonceMask := by
  rw [Batch.fullNonces, h.hashed, List.map_map]
  exact List.map_congr_left fun j _ => nonceField_slotAt hlen j

/-- All hashed slots were filled from a cursor within the mask. -/
theorem Swept.within {limit q : Nat} {batch : Batch}
    (h : Swept hash job T limit q c batch) : Within job T c (pipelineSize * q) := by
  rcases h.cursor with ⟨_, hw, _⟩ | ⟨r, _, hw, _⟩
  · exact hw
  · exact hw.mono (by omega)

theorem workerBatches_swept (hash : Bytes → Hash) (job : Job) (T : UInt32) (w n : Nat) :
    ∃ q, Swept hash job T (64 * n) q (UInt32.ofNat w) (workerBatches hash job T w n) :=
  mineBatches_swept hash T n _ _ (buffersOf_templateBuffers job)

/-! ## What one worker hashes -/

/-- Over all its batches a worker hashes the positions of complete rounds. -/
theorem mem_fullNonces_iff (hash : Bytes → Hash) (hlen : 43 ≤ job.blobBytes.length) {w : Nat}
    (hw : w < T.toNat) (x : UInt32) :
    (∃ n, x ∈ (workerBatches hash job T w n).fullNonces) ↔
      ∃ v : UInt32,
        Stride.Taken (2 ^ 32) (job.nonceMask.toNat + 1) pipelineSize T.toNat w v.toNat ∧
          x = mergeNonce (nonceField job.blobBytes) v job.nonceMask := by
  have hstart := toNat_ofNat_worker hw
  constructor
  · rintro ⟨n, hx⟩
    obtain ⟨q, hswept⟩ := workerBatches_swept hash job T w n
    rw [hswept.fullNonces_eq hlen, List.mem_map] at hx
    obtain ⟨j, hj, rfl⟩ := hx
    have hruns := within_iff_runs.mp hswept.within
    rw [hstart] at hruns
    refine ⟨cursorAt T (UInt32.ofNat w) j, ⟨q, j, List.mem_range.mp hj, hruns, ?_⟩, rfl⟩
    rw [toNat_cursorAt, hstart]
  · rintro ⟨v, ⟨q', j, hj, hruns, hv⟩, rfl⟩
    -- `q'` batches have room for `q'` rounds, and nothing stops the worker before
    obtain ⟨q, hswept⟩ := workerBatches_swept hash job T w q'
    have hwithin : Within job T (UInt32.ofNat w) (pipelineSize * q') := by
      rw [within_iff_runs, hstart]
      exact hruns
    have hle : q' ≤ q := by
      rcases hswept.cursor with ⟨hq, _⟩ | ⟨r, hr, _, hstop, _⟩
      · omega
      · by_contra hlt
        have hlast := hwithin (pipelineSize * q + r) (by
          have := Nat.mul_le_mul_left pipelineSize (show q + 1 ≤ q' by omega)
          rw [Nat.mul_succ] at this
          omega)
        exact UInt32.not_lt.mpr hlast hstop
    refine ⟨q', ?_⟩
    rw [hswept.fullNonces_eq hlen, List.mem_map]
    refine ⟨j, List.mem_range.mpr ?_, ?_⟩
    · exact Nat.lt_of_lt_of_le hj (Nat.mul_le_mul_left _ hle)
    · congr 1
      apply UInt32.toNat_inj.mp
      rw [toNat_cursorAt, hstart, hv]

/-- A taken position is within the mask. -/
theorem le_mask_of_taken {w : Nat} {v : UInt32}
    (h : Stride.Taken (2 ^ 32) (job.nonceMask.toNat + 1) pipelineSize T.toNat w v.toNat) :
    v ≤ job.nonceMask := by
  obtain ⟨q, j, hj, hruns, hv⟩ := h
  have := hruns j hj
  exact UInt32.le_iff_toNat_le.mpr (by omega)

/-! ## Running out of range -/

/-- The worker's cursor is above the NiceHash mask after `n` batches. -/
def RanOut (hash : Bytes → Hash) (job : Job) (T : UInt32) (w n : Nat) : Prop :=
  nicehashNonceMask < (workerBatches hash job T w n).nonce

section Nicehash

variable (hnice : job.nicehash = true)
include hnice

theorem rangeSize_of_nicehash : job.nonceMask.toNat + 1 = 2 ^ 24 := by
  rw [Job.nonceMask_of_nicehash hnice, toNat_nicehashNonceMask]
  rfl

/-- A worker that has run out did so within the round after its last. -/
theorem ranOut_stop {w n q : Nat} (hout : RanOut hash job T w n)
    (h : Swept hash job T (64 * n) q (UInt32.ofNat w) (workerBatches hash job T w n)) :
    ∃ r < pipelineSize, Within job T (UInt32.ofNat w) (pipelineSize * q + r) ∧
      job.nonceMask < cursorAt T (UInt32.ofNat w) (pipelineSize * q + r) := by
  rcases h.cursor with ⟨_, hw, hn⟩ | ⟨r, hr, hw, hstop, _⟩
  · refine ⟨0, by simp [pipelineSize], hw, ?_⟩
    rw [RanOut, hn, ← Job.nonceMask_of_nicehash hnice] at hout
    exact hout
  · exact ⟨r, hr, hw, hstop⟩

/-- Every worker runs out of range. -/
theorem exists_ranOut (hT : 0 < T) {w : Nat} (hw : w < T.toNat) :
    ∃ n, RanOut hash job T w n := by
  have hTN := T.toNat_lt
  have hstart := toNat_ofNat_worker hw
  obtain ⟨q, hswept⟩ := workerBatches_swept hash job T w (2 ^ 24)
  refine ⟨2 ^ 24, ?_⟩
  have hruns := within_iff_runs.mp hswept.within
  rw [hstart, rangeSize_of_nicehash hnice] at hruns
  have hshort := hruns.le (by omega) (UInt32.lt_iff_toNat_lt.mp hT) hTN (by omega)
  rcases hswept.cursor with ⟨hq, _⟩ | ⟨r, _, _, hstop, hn⟩
  · simp only [pipelineSize] at hshort
    omega
  · rw [RanOut, hn, ← Job.nonceMask_of_nicehash hnice]
    exact hstop

theorem Swept.lowNonces_eq {limit q : Nat} {batch : Batch}
    (hlen : 43 ≤ job.blobBytes.length) (h : Swept hash job T limit q c batch) :
    batch.lowNonces = (List.range (pipelineSize * q)).map (cursorAt T c) := by
  rw [Batch.lowNonces, h.fullNonces_eq hlen, List.map_map]
  refine List.map_congr_left fun j hj => ?_
  have hle := h.within j (List.mem_range.mp hj)
  rw [Function.comp_apply, ← Job.nonceMask_of_nicehash hnice, mergeNonce_and_mask,
    Job.and_nonceMask job hle]

/-- A worker that has run out has hashed the positions of its complete
rounds. -/
theorem mem_lowNonces_iff (hlen : 43 ≤ job.blobBytes.length) {w n : Nat}
    (hw : w < T.toNat) (hout : RanOut hash job T w n) (v : UInt32) :
    v ∈ (workerBatches hash job T w n).lowNonces ↔
      Stride.Taken (2 ^ 32) (2 ^ 24) pipelineSize T.toNat w v.toNat := by
  have hstart := toNat_ofNat_worker hw
  obtain ⟨q, hswept⟩ := workerBatches_swept hash job T w n
  obtain ⟨r, hr, hwithin, hstop⟩ := ranOut_stop hnice hout hswept
  have hruns := within_iff_runs.mp hwithin
  have hend := UInt32.lt_iff_toNat_lt.mp hstop
  rw [hstart, rangeSize_of_nicehash hnice] at hruns
  rw [toNat_cursorAt, hstart, Nat.lt_iff_add_one_le, rangeSize_of_nicehash hnice] at hend
  rw [hswept.lowNonces_eq hnice hlen, List.mem_map,
    Stride.taken_iff_of_stop hr hruns hend]
  simp only [List.mem_range, ← UInt32.toNat_inj, toNat_cursorAt, hstart]

theorem nodup_lowNonces (hlen : 43 ≤ job.blobBytes.length) (hT : 0 < T) {w n : Nat}
    (hw : w < T.toNat) : (workerBatches hash job T w n).lowNonces.Nodup := by
  have hTN := T.toNat_lt
  have hstart := toNat_ofNat_worker hw
  obtain ⟨q, hswept⟩ := workerBatches_swept hash job T w n
  have hruns := within_iff_runs.mp hswept.within
  rw [hstart, rangeSize_of_nicehash hnice] at hruns
  rw [hswept.lowNonces_eq hnice hlen]
  refine List.Nodup.map_on (fun i hi j hj heq => ?_) List.nodup_range
  have hpos := congrArg UInt32.toNat heq
  rw [toNat_cursorAt, toNat_cursorAt, hstart] at hpos
  exact Stride.pos_injOn (by omega) (UInt32.lt_iff_toNat_lt.mp hT) hTN (by omega) hruns
    (List.mem_range.mp hi) (List.mem_range.mp hj) hpos

end Nicehash

end

/-! ## Coverage of the NiceHash range -/

/-- The nonces that `T` workers hash, worker `w` over `K w` batches. -/
def allLowNonces (hash : Bytes → Hash) (job : Job) (T : UInt32) (K : Nat → Nat) :
    List UInt32 :=
  (List.range T.toNat).flatMap fun w => (workerBatches hash job T w (K w)).lowNonces

/-- Every worker runs out of the NiceHash range; when all have, every nonce
of the range was hashed exactly once exactly when the rounds of sixteen
strides fill the range. -/
theorem nicehash_coverage_iff (hash : Bytes → Hash) {job : Job}
    (hnice : job.nicehash = true) (hlen : 43 ≤ job.blobBytes.length) {T : UInt32}
    (hT : 0 < T) :
    (∀ w < T.toNat, ∃ n, RanOut hash job T w n) ∧
      ∀ K : Nat → Nat, (∀ w < T.toNat, RanOut hash job T w (K w)) →
        ((∀ v ≤ nicehashNonceMask, (allLowNonces hash job T K).count v = 1) ↔
          T.toNat ∣ 2 ^ 20 ∨ T.toNat = 2 ^ 32 - 2 ^ 20) := by
  refine ⟨fun w hw => exists_ranOut hnice hT hw, fun K hK => ?_⟩
  have hTN := T.toNat_lt
  have hTpos := UInt32.lt_iff_toNat_lt.mp hT
  have hcount : ∀ v, (allLowNonces hash job T K).count v = 1 ↔
      ∃ w < T.toNat, Stride.Taken (2 ^ 32) (2 ^ 24) pipelineSize T.toNat w v.toNat ∧
        ∀ w' < T.toNat, w' ≠ w →
          ¬ Stride.Taken (2 ^ 32) (2 ^ 24) pipelineSize T.toNat w' v.toNat := by
    intro v
    rw [allLowNonces, Stride.count_flatMap_range_eq_one_iff fun w hw =>
      nodup_lowNonces hnice hlen hT hw]
    constructor
    · rintro ⟨w, hw, hmem, huniq⟩
      refine ⟨w, hw, (mem_lowNonces_iff hnice hlen hw (hK w hw) v).mp hmem, ?_⟩
      intro w' hw' hne ht
      exact huniq w' hw' hne ((mem_lowNonces_iff hnice hlen hw' (hK w' hw') v).mpr ht)
    · rintro ⟨w, hw, ht, huniq⟩
      refine ⟨w, hw, (mem_lowNonces_iff hnice hlen hw (hK w hw) v).mpr ht, ?_⟩
      intro w' hw' hne hmem
      exact huniq w' hw' hne ((mem_lowNonces_iff hnice hlen hw' (hK w' hw') v).mp hmem)
  have hcover : (∀ v ≤ nicehashNonceMask, (allLowNonces hash job T K).count v = 1) ↔
      Stride.Covers (2 ^ 32) (2 ^ 24) pipelineSize T.toNat := by
    constructor
    · intro h v hv
      have hval : (UInt32.ofNat v).toNat = v := by
        rw [UInt32.toNat_ofNat', Nat.mod_eq_of_lt (by omega)]
      have := (hcount (UInt32.ofNat v)).mp (h _ (by
        rw [UInt32.le_iff_toNat_le, hval, toNat_nicehashNonceMask]
        omega))
      rwa [hval] at this
    · intro h v hv
      have hle := UInt32.le_iff_toNat_le.mp hv
      rw [toNat_nicehashNonceMask] at hle
      exact (hcount v).mpr (h v.toNat (by omega))
  rw [hcover, Stride.taken_cover_iff (by simp [pipelineSize]) hTpos hTN (by omega) (by omega)]
  have hrounds : pipelineSize * T.toNat ∣ 2 ^ 24 ↔ T.toNat ∣ 2 ^ 20 :=
    Nat.mul_dvd_mul_iff_left (a := 16) (c := 2 ^ 20) (by omega)
  have hmirror : pipelineSize * (2 ^ 32 - T.toNat) = 2 ^ 24 ↔ T.toNat = 2 ^ 32 - 2 ^ 20 := by
    simp only [pipelineSize]
    omega
  rw [hrounds, hmirror]

/-- A job with a reserved byte in its nonce field, as the pool parser accepts
it. -/
def reservedByteJob : Job :=
  { jobId := "j", blob := Base16.encode (List.replicate 42 0 ++ [1]), target := "ffffffff"
    algo := "rx/0", height := none, seedHash := none, blockTemplateBlob := none
    blobBytes := List.replicate 42 0 ++ [1], difficulty := 1, nicehash := true }

theorem reservedByteJob_accepted : reservedByteJob.Accepted :=
  .notify (show Job.fromNotify
    [.string "j", .string (Base16.encode (List.replicate 42 0 ++ [1])),
      .string "ffffffff", .string "rx/0"] = _ from rfl)

/-- A single worker covers the range. -/
theorem nicehash_coverage_one :
    ∃ K : Nat → Nat, (∀ w < (1 : UInt32).toNat, RanOut zeroHash reservedByteJob 1 w (K w)) ∧
      ∀ v ≤ nicehashNonceMask, (allLowNonces zeroHash reservedByteJob 1 K).count v = 1 := by
  have hone : (0 : UInt32) < 1 := by decide
  have hnice : reservedByteJob.nicehash = true := rfl
  obtain ⟨hrun, hcover⟩ := nicehash_coverage_iff zeroHash hnice (by decide) hone
  choose! K hK using hrun
  exact ⟨K, hK, (hcover K hK).mpr (Or.inl (one_dvd _))⟩

/-- Three workers drop the last nonce of the range: it is the sixth slot of a
round of worker `0` that is never complete. -/
theorem nicehash_coverage_three_fails :
    reservedByteJob.Accepted ∧
      ∃ K : Nat → Nat, (∀ w < 3, RanOut zeroHash reservedByteJob 3 w (K w)) ∧
        (allLowNonces zeroHash reservedByteJob 3 K).count nicehashNonceMask = 0 := by
  have hthree : (0 : UInt32) < 3 := by decide
  have hnice : reservedByteJob.nicehash = true := rfl
  have hrun : ∀ w < 3, ∃ n, RanOut zeroHash reservedByteJob 3 w n :=
    fun w hw => exists_ranOut hnice hthree hw
  choose! K hK using hrun
  refine ⟨reservedByteJob_accepted, K, hK, ?_⟩
  rw [List.count_eq_zero, allLowNonces, List.mem_flatMap]
  rintro ⟨w, hw, hmem⟩
  have hw3 : w < 3 := List.mem_range.mp hw
  have ht := (mem_lowNonces_iff hnice (by decide) hw3 (hK w hw3) _).mp hmem
  rw [toNat_nicehashNonceMask] at ht
  obtain ⟨q, j, hj, hlast, hv⟩ :=
    (Stride.taken_iff_of_le (by omega) (by decide) (by decide)).mp ht
  simp only [pipelineSize, show (3 : UInt32).toNat = 3 from rfl] at hj hlast hv
  omega

/-! ## The partition of the nonces -/

/-- Disjointness of what the workers hash, in terms of strides. -/
theorem fullNonces_disjoint_iff (hash : Bytes → Hash) {job : Job}
    (hlen : 43 ≤ job.blobBytes.length) (T : UInt32) :
    (∀ w < T.toNat, ∀ w' < T.toNat, w ≠ w' → ∀ n n',
        List.Disjoint (workerBatches hash job T w n).fullNonces
          (workerBatches hash job T w' n').fullNonces) ↔
      ∀ w < T.toNat, ∀ w' < T.toNat, w ≠ w' → ∀ v : UInt32,
        ¬ (Stride.Taken (2 ^ 32) (job.nonceMask.toNat + 1) pipelineSize T.toNat w v.toNat ∧
          Stride.Taken (2 ^ 32) (job.nonceMask.toNat + 1) pipelineSize T.toNat w'
            v.toNat) := by
  constructor
  · rintro h w hw w' hw' hne v ⟨ht, ht'⟩
    obtain ⟨n, hn⟩ := (mem_fullNonces_iff hash hlen hw _).mpr ⟨v, ht, rfl⟩
    obtain ⟨n', hn'⟩ := (mem_fullNonces_iff hash hlen hw' _).mpr ⟨v, ht', rfl⟩
    exact h w hw w' hw' hne n n' hn hn'
  · intro h w hw w' hw' hne n n' x hx hx'
    obtain ⟨v, ht, rfl⟩ := (mem_fullNonces_iff hash hlen hw x).mp ⟨n, hx⟩
    obtain ⟨v', ht', heq⟩ := (mem_fullNonces_iff hash hlen hw' _).mp ⟨n', hx'⟩
    obtain rfl := Job.mergeNonce_injective job _ (le_mask_of_taken ht)
      (le_mask_of_taken ht') heq
    exact h w hw w' hw' hne v ⟨ht, ht'⟩

/-- With the full mask every position is taken sooner or later. -/
theorem taken_full_iff {T w v : Nat} :
    Stride.Taken (2 ^ 32) (2 ^ 32) pipelineSize T w v ↔
      ∃ j, Stride.pos (2 ^ 32) T w j = v := by
  constructor
  · rintro ⟨_, j, _, _, hv⟩
    exact ⟨j, hv⟩
  · rintro ⟨j, hv⟩
    refine ⟨j + 1, j, ?_, fun i _ => Nat.mod_lt _ (by omega), hv⟩
    simp only [pipelineSize]
    omega

/-- A property of small numbers fails for all of them when it fails for all
nonces. -/
theorem forall_not_toNat_iff {P : Nat → Prop} (hP : ∀ v, P v → v < 2 ^ 32) :
    (∀ v : UInt32, ¬ P v.toNat) ↔ ∀ v, ¬ P v := by
  constructor
  · intro h v hv
    have hlt := hP v hv
    apply h (UInt32.ofNat v)
    rwa [UInt32.toNat_ofNat', Nat.mod_eq_of_lt hlt]
  · intro h v
    exact h v.toNat

/-- Two workers never hash the same full nonce exactly when the threads are
few enough for the NiceHash range, or without a reserved byte, when their
number divides `2^32`. -/
theorem worker_nonces_disjoint_iff (hash : Bytes → Hash) {job : Job}
    (hlen : 43 ≤ job.blobBytes.length) {T : UInt32} (hT : 0 < T) :
    (∀ w < T.toNat, ∀ w' < T.toNat, w ≠ w' → ∀ n n',
        List.Disjoint (workerBatches hash job T w n).fullNonces
          (workerBatches hash job T w' n').fullNonces) ↔
      (job.nicehash = true → T.toNat ≤ 2 ^ 32 - 2 ^ 20) ∧
        (job.nicehash = false → T.toNat ∣ 2 ^ 32) := by
  have hTN := T.toNat_lt
  have hTpos := UInt32.lt_iff_toNat_lt.mp hT
  rw [fullNonces_disjoint_iff hash hlen T]
  cases hnice : job.nicehash with
  | true =>
      have hiff := Stride.taken_disjoint_iff (N := 2 ^ 32) (R := 2 ^ 24)
        (g := pipelineSize) (T := T.toNat) (by simp [pipelineSize]) hTN (by omega)
      rw [rangeSize_of_nicehash hnice]
      simp only [true_implies, Bool.true_eq_false, false_implies, and_true]
      rw [show T.toNat ≤ 2 ^ 32 - 2 ^ 20 ↔ 2 ^ 24 ≤ pipelineSize * (2 ^ 32 - T.toNat) by
        simp only [pipelineSize]; omega, ← hiff]
      refine forall₄_congr fun w _ w' _ => forall_congr' fun _ => forall_not_toNat_iff
        (P := fun v => Stride.Taken (2 ^ 32) (2 ^ 24) pipelineSize T.toNat w v ∧
          Stride.Taken (2 ^ 32) (2 ^ 24) pipelineSize T.toNat w' v) ?_
      rintro v ⟨⟨q, j, hj, hruns, hv⟩, _⟩
      have := hruns j hj
      omega
  | false =>
      rw [Job.nonceMask_of_not_nicehash hnice, toNat_u32Max]
      simp only [Bool.false_eq_true, false_implies, true_and, true_implies]
      rw [← Stride.orbits_disjoint_iff hTpos hTN]
      refine forall₄_congr fun w _ w' _ => forall_congr' fun _ => ?_
      simp only [Nat.sub_add_cancel (show 1 ≤ 2 ^ 32 by omega), taken_full_iff]
      constructor
      · intro h j j' heq
        have hlt : Stride.pos (2 ^ 32) T.toNat w j < 2 ^ 32 := Nat.mod_lt _ (by omega)
        apply h (UInt32.ofNat (Stride.pos (2 ^ 32) T.toNat w j))
        rw [UInt32.toNat_ofNat', Nat.mod_eq_of_lt hlt]
        exact ⟨⟨j, rfl⟩, ⟨j', heq.symm⟩⟩
      · rintro h v ⟨⟨j, hj⟩, ⟨j', hj'⟩⟩
        exact h j j' (hj.trans hj'.symm)

/-- Two workers keep to the even and the odd nonces. -/
theorem worker_nonces_disjoint_two :
    zeroBlobJob.Accepted ∧
      ∀ w < (2 : UInt32).toNat, ∀ w' < (2 : UInt32).toNat, w ≠ w' → ∀ n n',
        List.Disjoint (workerBatches zeroHash zeroBlobJob 2 w n).fullNonces
          (workerBatches zeroHash zeroBlobJob 2 w' n').fullNonces := by
  have hlen : 43 ≤ zeroBlobJob.blobBytes.length := by decide
  have htwo : (0 : UInt32) < 2 := by decide
  refine ⟨zeroBlobJob_accepted, ?_⟩
  rw [worker_nonces_disjoint_iff zeroHash hlen htwo]
  decide

/-- Worker `0` of three wraps around twice and then hashes the nonce that
worker `1` started with. -/
theorem worker_nonces_meet_three :
    zeroBlobJob.Accepted ∧
      ∃ n n', ¬ List.Disjoint (workerBatches zeroHash zeroBlobJob 3 0 n).fullNonces
        (workerBatches zeroHash zeroBlobJob 3 1 n').fullNonces := by
  have hlen : 43 ≤ zeroBlobJob.blobBytes.length := by decide
  have htaken : ∀ w j, Stride.pos (2 ^ 32) 3 w j = 1 →
      Stride.Taken (2 ^ 32) (zeroBlobJob.nonceMask.toNat + 1) pipelineSize
        (3 : UInt32).toNat w (1 : UInt32).toNat :=
    fun w j h => taken_full_iff.mpr ⟨j, h⟩
  obtain ⟨n, hn⟩ := (mem_fullNonces_iff zeroHash hlen (by decide) _).mpr
    ⟨1, htaken 0 2863311531 (by decide), rfl⟩
  obtain ⟨n', hn'⟩ := (mem_fullNonces_iff zeroHash hlen (by decide) _).mpr
    ⟨1, htaken 1 0 (by decide), rfl⟩
  exact ⟨zeroBlobJob_accepted, n, n', fun hdisj => hdisj hn hn'⟩

end LiteXmr
