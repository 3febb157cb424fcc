/-
LiteXmr.Miner.ReservedBytesTheorems — what mining leaves alone in a blob.

The nonce field is the only part of a buffer that is ever written, and under
the NiceHash mask not even all of it: the top byte, which the proxy has
reserved, is among the bits outside the mask (`top_stamp_of_merge`). The
buffers are written over and over and reused from job to job, but each hashed
one is a slot of the job it is hashed for (`Swept`), and a slot is the blob of
the job with one nonce merged in.

* `reserved_bytes_preserved` — every blob hashed in any run keeps length,
  bytes outside the nonce field and reserved byte of its job's blob; and any
  sequence of `write_nonce` calls with one mask amounts to its last call.
-/
import LiteXmr.Miner.WorkerTheorems

namespace LiteXmr

open Lts

/-! ## A sequence of writes -/

/-- The calls of `write_nonce` on one blob with one mask, in order: the blob
they leave and what each returns. -/
def writeNonces (mask : UInt32) : Bytes → List UInt32 → Bytes × List (Option UInt32)
  | blob, [] => (blob, [])
  | blob, nonce :: nonces =>
      match writeNonce blob nonce mask with
      | none =>
          let rest := writeNonces mask blob nonces
          (rest.1, none :: rest.2)
      | some (written, full) =>
          let rest := writeNonces mask written nonces
          (rest.1, some full :: rest.2)

theorem writeNonces_cons {blob : Bytes} (h : 43 ≤ blob.length) (mask nonce : UInt32)
    (nonces : List UInt32) :
    writeNonces mask blob (nonce :: nonces) =
      ((writeNonces mask (stamp blob (mergeNonce (nonceField blob) nonce mask)) nonces).1,
        some (mergeNonce (nonceField blob) nonce mask) ::
          (writeNonces mask (stamp blob (mergeNonce (nonceField blob) nonce mask)) nonces).2) := by
  rw [writeNonces, writeNonce_of_le h]

/-- The last call decides. -/
theorem writeNonces_concat {blob : Bytes} (h : 43 ≤ blob.length) (mask last : UInt32)
    (nonces : List UInt32) :
    (writeNonces mask blob (nonces ++ [last])).1
        = stamp blob (mergeNonce (nonceField blob) last mask) ∧
      (writeNonces mask blob (nonces ++ [last])).2.getLast?
        = some (some (mergeNonce (nonceField blob) last mask)) := by
  induction nonces generalizing blob with
  | nil =>
      rw [List.nil_append, writeNonces_cons h]
      exact ⟨rfl, rfl⟩
  | cons nonce nonces ih =>
      have hlen := length_stamp h (mergeNonce (nonceField blob) nonce mask)
      obtain ⟨hblob, hlast⟩ := ih (h.trans_eq hlen.symm)
      rw [nonceField_stamp h, mergeNonce_mergeNonce] at hblob hlast
      rw [List.cons_append, writeNonces_cons h]
      refine ⟨?_, ?_⟩
      · rw [hblob, stamp_stamp h]
      · rw [List.getLast?_cons, hlast]
        rfl

/-! ## The bytes of a slot -/

/-- The top byte of the nonce field is the last of its four bytes. -/
theorem top_stamp {blob : Bytes} (h : 43 ≤ blob.length) (nonce : UInt32) :
    (stamp blob nonce)[42]? = (u32ToLe nonce)[3]? := by
  rw [← window_stamp h nonce, Bytes.getElem?_window _ (by omega)]
  rfl

theorem top_of_nonceField {blob : Bytes} (h : 43 ≤ blob.length) :
    blob[42]? = (u32ToLe (nonceField blob))[3]? := by
  have hlen : (Bytes.window blob nonceOffset 4).length = 4 := Bytes.length_window h
  rw [nonceField, readNonce_of_le h, Option.getD_some, u32ToLe_u32FromLe hlen,
    Bytes.getElem?_window _ (by omega)]
  rfl

theorem top_u32ToLe (x : UInt32) : (u32ToLe x)[3]? = some (UInt8.ofNat (x.toNat >>> 24)) := by
  simp [u32ToLe, Bytes.leOfNat, Nat.div_div_eq_div_mul, Nat.shiftRight_eq_div_pow]

/-- The bits outside the NiceHash mask are the top byte. -/
theorem top_eq_of_and_not_mask {x y : UInt32}
    (h : x &&& ~~~nicehashNonceMask = y &&& ~~~nicehashNonceMask) :
    (u32ToLe x)[3]? = (u32ToLe y)[3]? := by
  have htop : ∀ z : UInt32, (z &&& ~~~nicehashNonceMask).toNat >>> 24 = z.toNat >>> 24 := by
    intro z
    have hz := z.toNat_lt
    rw [UInt32.toNat_and, Nat.shiftRight_and_distrib,
      show (~~~nicehashNonceMask).toNat >>> 24 = 2 ^ 8 - 1 from rfl,
      Nat.and_two_pow_sub_one_eq_mod, Nat.shiftRight_eq_div_pow]
    omega
  rw [top_u32ToLe, top_u32ToLe, ← htop x, ← htop y, h]

/-- A nonce merged in under the NiceHash mask leaves the reserved byte. -/
theorem top_stamp_of_merge {blob : Bytes} (h : 43 ≤ blob.length) (nonce : UInt32) :
    (stamp blob (mergeNonce (nonceField blob) nonce nicehashNonceMask))[42]? = blob[42]? := by
  rw [top_stamp h, top_of_nonceField h]
  exact top_eq_of_and_not_mask (mergeNonce_and_not_mask _ _ _)

/-- The input has what the miner must leave alone in the blob of the job. -/
structure KeepsReserved (job : Job) (input : Bytes) : Prop where
  length : input.length = job.blobBytes.length
  outside : ∀ i, i < 39 ∨ 43 ≤ i → input[i]? = job.blobBytes[i]?
  reserved : job.nicehash = true → input[42]? = job.blobBytes[42]?

theorem keepsReserved_slotAt (job : Job) (T c : UInt32) (j : Nat) :
    KeepsReserved job (slotAt job T c j).1 := by
  rw [slotAt]
  by_cases h : 43 ≤ job.blobBytes.length
  · rw [fillSlot_of_le h]
    refine ⟨length_stamp h _, fun i hi => getElem?_stamp h _ hi, fun hnice => ?_⟩
    rw [Job.nonceMask_of_nicehash hnice]
    exact top_stamp_of_merge h _
  · -- a blob without a nonce field is hashed as it stands
    rw [fillSlot_of_lt (by omega)]
    exact ⟨rfl, fun _ _ => rfl, fun _ => rfl⟩

theorem Swept.keepsReserved {hash : Bytes → Hash} {job : Job} {T c : UInt32}
    {limit q : Nat} {batch : Batch} (h : Swept hash job T limit q c batch) :
    ∀ input ∈ batch.hashed, KeepsReserved job input := by
  intro input hmem
  rw [h.hashed] at hmem
  obtain ⟨j, _, rfl⟩ := List.mem_map.mp hmem
  exact keepsReserved_slotAt job T c j

/-! ## The law -/

/-- What was hashed in any run, by any worker, for whatever job; and what a
sequence of writes leaves in a blob that has a nonce field. -/
theorem reserved_bytes_preserved (config : MinerConfig) {is : List MinerInput}
    {s : MinerState} {tr : List MinerObs}
    (h : Run (minerStep config) (fun _ _ => True) (.start config.threadCount) is s tr) :
    (∀ w job vm nonce blobs result, .batch w job vm nonce blobs result ∈ tr →
        ∀ input ∈ result.hashed, KeepsReserved job input) ∧
      ∀ (mask last : UInt32) (blob : Bytes) (nonces : List UInt32), 43 ≤ blob.length →
        ∃ original full, readNonce blob = some original ∧
          (writeNonces mask blob (nonces ++ [last])).2.getLast? = some (some full) ∧
          readNonce (writeNonces mask blob (nonces ++ [last])).1 = some full ∧
          full &&& ~~~mask = original &&& ~~~mask ∧ full &&& mask = last &&& mask := by
  constructor
  · intro w job vm nonce blobs result hmem
    obtain ⟨pre, post, rfl⟩ := List.append_of_mem hmem
    have hbatch := batch_uses_adopted_job config h pre _ post rfl w job vm nonce blobs result rfl
    obtain ⟨q, hswept⟩ := hbatch.swept
    exact hswept.keepsReserved
  · intro mask last blob nonces hlen
    obtain ⟨hblob, hlast⟩ := writeNonces_concat hlen mask last nonces
    refine ⟨nonceField blob, mergeNonce (nonceField blob) last mask,
      readNonce_eq_nonceField hlen, hlast, ?_, mergeNonce_and_not_mask _ _ _,
      mergeNonce_and_mask _ _ _⟩
    have hstamp := length_stamp hlen (mergeNonce (nonceField blob) last mask)
    rw [hblob, readNonce_eq_nonceField (hlen.trans_eq hstamp.symm), nonceField_stamp hlen]

/-- A batch on a job with a reserved byte. -/
def reservedRun : List MinerInput :=
  [.publish reservedByteJob, .read 0, .cache (.lock 0), .cache (.built 0 true),
    .cache (.store 0), .createVm 0 true, .mine 0]

/-- A batch that hashes for a NiceHash job. -/
def hashesReserved (_ : List MinerObs) : MinerObs → Bool
  | .batch _ job _ _ _ result => job.nicehash && !result.hashed.isEmpty
  | _ => false

theorem reserved_bytes_preserved_nicehash :
    ∃ s tr, endsWith hashesReserved tr = true ∧
      Run (minerStep worstConfig) (fun _ _ => True) (.start 1) reservedRun s tr ∧
      (∀ w job vm nonce blobs result, .batch w job vm nonce blobs result ∈ tr →
        ∀ input ∈ result.hashed, KeepsReserved job input) ∧
      readNonce (writeNonces nicehashNonceMask reservedByteJob.blobBytes ([7] ++ [8])).1
        = some 0x01000008 := by
  have hexec : (exec (minerStep worstConfig) (.start 1) reservedRun).any
      (fun r => endsWith hashesReserved r.2) = true := by decide +kernel
  obtain ⟨s, tr, hrun, hends⟩ := anyRun_of_exec_test
    (p := fun _ tr => endsWith hashesReserved tr) hexec
  obtain ⟨hbatches, hwrites⟩ := reserved_bytes_preserved worstConfig hrun
  obtain ⟨original, full, horiginal, hlast, hread, _⟩ :=
    hwrites nicehashNonceMask 8 reservedByteJob.blobBytes [7] (by decide)
  refine ⟨s, tr, hends, hrun, hbatches, ?_⟩
  have hreturned : (writeNonces nicehashNonceMask reservedByteJob.blobBytes
      ([7] ++ [8])).2.getLast? = some (some 0x01000008) := by decide
  rw [hread]
  exact Option.some.inj (hlast.symm.trans hreturned)

end LiteXmr
