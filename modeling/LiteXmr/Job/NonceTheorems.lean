/-
LiteXmr.Job.NonceTheorems — what a nonce write does to a blob, and what the
three job constructors guarantee about the nonce field.

`mergeNonce` keeps the bits outside the mask and takes the bits inside it
from the nonce, so writing twice is writing once (`mergeNonce_mergeNonce`)
and on a mask that is an initial run of ones the low bits of the merged
value are the nonce itself (`mergeNonce_and_mask`, `and_nonceMask`).

A write is a `stamp` of the merged nonce (`writeNonce_of_le`), and a second
stamp replaces the first one (`stamp_stamp`).
-/
import LiteXmr.Job.Job

namespace LiteXmr

/-! ## Four little-endian bytes -/

@[simp] theorem length_u32ToLe (x : UInt32) : (u32ToLe x).length = 4 := by
  simp [u32ToLe]

@[simp] theorem u32FromLe_u32ToLe (x : UInt32) : u32FromLe (u32ToLe x) = x := by
  have hx := x.toNat_lt
  apply UInt32.toNat_inj.mp
  rw [u32FromLe, u32ToLe, Bytes.natOfLe_leOfNat, UInt32.toNat_ofNat']
  omega

theorem u32ToLe_u32FromLe {bs : Bytes} (h : bs.length = 4) :
    u32ToLe (u32FromLe bs) = bs := by
  have hlt := Bytes.natOfLe_lt bs
  rw [h] at hlt
  rw [u32ToLe, u32FromLe, UInt32.toNat_ofNat', Nat.mod_eq_of_lt (by omega), ← h,
    Bytes.leOfNat_natOfLe]

/-! ## Merging -/

theorem mergeNonce_mergeNonce (current n n' mask : UInt32) :
    mergeNonce (mergeNonce current n mask) n' mask = mergeNonce current n' mask := by
  apply UInt32.toBitVec_inj.mp
  ext i hi
  simp only [mergeNonce, UInt32.toBitVec_or, UInt32.toBitVec_and, UInt32.toBitVec_not,
    BitVec.getElem_or, BitVec.getElem_and, BitVec.getElem_not]
  cases current.toBitVec[i] <;> cases n.toBitVec[i] <;> cases n'.toBitVec[i] <;>
    cases mask.toBitVec[i] <;> rfl

/-- Inside the mask the merged value is the nonce. -/
theorem mergeNonce_and_mask (current n mask : UInt32) :
    mergeNonce current n mask &&& mask = n &&& mask := by
  apply UInt32.toBitVec_inj.mp
  ext i hi
  simp only [mergeNonce, UInt32.toBitVec_or, UInt32.toBitVec_and, UInt32.toBitVec_not,
    BitVec.getElem_or, BitVec.getElem_and, BitVec.getElem_not]
  cases current.toBitVec[i] <;> cases n.toBitVec[i] <;> cases mask.toBitVec[i] <;> rfl

/-- To merge under the complement is to merge the other way round. -/
theorem mergeNonce_not (current n mask : UInt32) :
    mergeNonce n current (~~~mask) = mergeNonce current n mask := by
  rw [mergeNonce, mergeNonce, UInt32.not_not, UInt32.or_comm]

/-- Outside the mask the merged value is what the blob held. -/
theorem mergeNonce_and_not_mask (current n mask : UInt32) :
    mergeNonce current n mask &&& ~~~mask = current &&& ~~~mask := by
  rw [← mergeNonce_not, mergeNonce_and_mask]

/-- Under the full mask the merged value is the nonce. -/
theorem mergeNonce_u32Max (current n : UInt32) : mergeNonce current n u32Max = n := by
  have hall : ∀ x : UInt32, x &&& u32Max = x := by
    intro x
    apply UInt32.toNat_inj.mp
    rw [UInt32.toNat_and, show u32Max.toNat = 2 ^ 32 - 1 from rfl,
      Nat.and_two_pow_sub_one_eq_mod, Nat.mod_eq_of_lt x.toNat_lt]
  rw [← hall (mergeNonce current n u32Max), mergeNonce_and_mask, hall]

theorem toNat_nicehashNonceMask : nicehashNonceMask.toNat = 2 ^ 24 - 1 := rfl

theorem toNat_u32Max : u32Max.toNat = 2 ^ 32 - 1 := rfl

namespace Job

theorem nonceMask_of_nicehash {job : Job} (h : job.nicehash = true) :
    job.nonceMask = nicehashNonceMask := by
  simp [nonceMask, h]

theorem nonceMask_of_not_nicehash {job : Job} (h : job.nicehash = false) :
    job.nonceMask = u32Max := by
  simp [nonceMask, h]

/-- A cursor that has not run past the mask survives masking. -/
theorem and_nonceMask (job : Job) {n : UInt32} (h : n ≤ job.nonceMask) :
    n &&& job.nonceMask = n := by
  have hle := UInt32.le_iff_toNat_le.mp h
  have hn := n.toNat_lt
  apply UInt32.toNat_inj.mp
  rw [UInt32.toNat_and]
  cases hj : job.nicehash with
  | true =>
      rw [nonceMask_of_nicehash hj, toNat_nicehashNonceMask] at hle ⊢
      rw [Nat.and_two_pow_sub_one_eq_mod, Nat.mod_eq_of_lt (by omega)]
  | false =>
      rw [nonceMask_of_not_nicehash hj, toNat_u32Max] at hle ⊢
      rw [Nat.and_two_pow_sub_one_eq_mod, Nat.mod_eq_of_lt (by omega)]

/-- Cursors below the mask give different full nonces. -/
theorem mergeNonce_injective (job : Job) (current : UInt32) {n n' : UInt32}
    (hn : n ≤ job.nonceMask) (hn' : n' ≤ job.nonceMask)
    (h : mergeNonce current n job.nonceMask = mergeNonce current n' job.nonceMask) :
    n = n' := by
  have := congrArg (· &&& job.nonceMask) h
  simpa only [mergeNonce_and_mask, and_nonceMask job hn, and_nonceMask job hn'] using this

end Job

/-! ## Reading and writing -/

theorem readNonce_eq_none_iff (blob : Bytes) : readNonce blob = none ↔ blob.length < 43 := by
  unfold readNonce
  split
  · next h => simpa [nonceOffset] using h
  · next h => simpa [nonceOffset] using h

theorem readNonce_of_le {blob : Bytes} (h : 43 ≤ blob.length) :
    readNonce blob = some (u32FromLe (Bytes.window blob nonceOffset 4)) := by
  rw [readNonce, if_neg (by simpa [nonceOffset] using h)]

/-- The nonce field of a blob that has one, and zero for one that does not. -/
def nonceField (blob : Bytes) : UInt32 := (readNonce blob).getD 0

theorem readNonce_eq_nonceField {blob : Bytes} (h : 43 ≤ blob.length) :
    readNonce blob = some (nonceField blob) := by
  rw [nonceField, readNonce_of_le h]
  rfl

/-- The blob with a full nonce in its nonce field. -/
def stamp (blob : Bytes) (nonce : UInt32) : Bytes :=
  Bytes.overwrite blob nonceOffset (u32ToLe nonce)

theorem length_stamp {blob : Bytes} (h : 43 ≤ blob.length) (nonce : UInt32) :
    (stamp blob nonce).length = blob.length :=
  Bytes.length_overwrite (by simpa [nonceOffset] using h)

theorem window_stamp {blob : Bytes} (h : 43 ≤ blob.length) (nonce : UInt32) :
    Bytes.window (stamp blob nonce) nonceOffset 4 = u32ToLe nonce := by
  have hfits : nonceOffset + (u32ToLe nonce).length ≤ blob.length := by
    simpa [nonceOffset] using h
  have := Bytes.window_overwrite hfits
  rwa [length_u32ToLe] at this

theorem nonceField_stamp {blob : Bytes} (h : 43 ≤ blob.length) (nonce : UInt32) :
    nonceField (stamp blob nonce) = nonce := by
  rw [nonceField, readNonce_of_le (by rw [length_stamp h]; exact h), window_stamp h]
  simp

theorem getElem?_stamp {blob : Bytes} (h : 43 ≤ blob.length) (nonce : UInt32) {i : Nat}
    (hi : i < 39 ∨ 43 ≤ i) : (stamp blob nonce)[i]? = blob[i]? := by
  refine Bytes.getElem?_overwrite ?_ ?_
  · rw [length_u32ToLe]
    exact h
  · rw [length_u32ToLe]
    exact hi

theorem stamp_stamp {blob : Bytes} (h : 43 ≤ blob.length) (n n' : UInt32) :
    stamp (stamp blob n) n' = stamp blob n' :=
  Bytes.overwrite_overwrite (by simpa [nonceOffset] using h) (by simp)

theorem writeNonce_of_le {blob : Bytes} (h : 43 ≤ blob.length) (nonce mask : UInt32) :
    writeNonce blob nonce mask
      = some (stamp blob (mergeNonce (nonceField blob) nonce mask),
          mergeNonce (nonceField blob) nonce mask) := by
  rw [writeNonce, readNonce_eq_nonceField h]
  rfl

/-! ## The constructors and the nonce field -/

theorem detectsNicehashNonce_of_short {blob : Bytes} (h : blob.length < 43) :
    detectsNicehashNonce blob = false := by
  simp [detectsNicehashNonce, (readNonce_eq_none_iff blob).mpr h]

theorem Job.ofPoolFields_nicehash {jobId blob target algo : String}
    {height : Option UInt64} {seedHash : Option String} {job : Job}
    (h : ofPoolFields jobId blob target algo height seedHash = some job) :
    job.nicehash = detectsNicehashNonce job.blobBytes := by
  unfold ofPoolFields at h
  split at h
  · cases h
  · split at h
    · cases h
    · cases h
      rfl

theorem Job.fromNotify_eq {params : List Json} {job : Job}
    (h : fromNotify params = some job) :
    ∃ jobId blob target algo height seedHash,
      ofPoolFields jobId blob target algo height seedHash = some job := by
  unfold fromNotify at h
  split at h
  · cases h
  · split at h
    · exact ⟨_, _, _, _, _, _, h⟩
    · cases h

theorem Job.fromC3poolJob_eq {obj : Json} {job : Job}
    (h : fromC3poolJob obj = some job) :
    ∃ jobId blob target algo height seedHash,
      ofPoolFields jobId blob target algo height seedHash = some job := by
  unfold fromC3poolJob at h
  split at h
  · exact ⟨_, _, _, _, _, _, h⟩
  · cases h

/-- A blob without a nonce field is never taken for a NiceHash one. -/
theorem Job.Accepted.nicehash_of_short {job : Job} (h : Accepted job)
    (hlen : job.blobBytes.length < 43) : job.nicehash = false := by
  cases h with
  | notify h =>
      obtain ⟨_, _, _, _, _, _, hf⟩ := fromNotify_eq h
      rw [ofPoolFields_nicehash hf, detectsNicehashNonce_of_short hlen]
  | c3pool h =>
      obtain ⟨_, _, _, _, _, _, hf⟩ := fromC3poolJob_eq h
      rw [ofPoolFields_nicehash hf, detectsNicehashNonce_of_short hlen]
  | daemon h =>
      unfold fromDaemonTemplate at h
      split at h
      · cases h
      · split at h
        · cases h
        · cases h
          rfl

end LiteXmr
