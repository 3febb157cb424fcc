/-
LiteXmr.Job.JobTheorems — what the two pool parsers accept, and the fields
they compute.

`PoolJob` says which job a set of fields stands for, and `C3poolJob` and
`NotifyJob` where the fields are in a job object and in the parameters of
`mining.notify`. `fromC3poolJob_iff` and `fromNotify_iff` say that a parser,
with the test for the algorithm its callers make, accepts exactly these; so
with a field missing, hex that does not decode or another algorithm there is
no job. `Sound` is what the miner relies on in an accepted job
(`PoolJob.sound`).
-/
import LiteXmr.Algorithms
import LiteXmr.Job.NonceTheorems

namespace LiteXmr

/-! ## The computed fields -/

theorem u32FromLe_eq_zero_iff {bs : Bytes} (h : bs.length = 4) :
    u32FromLe bs = 0 ↔ ∀ b ∈ bs, b = 0 := by
  constructor
  · intro hzero
    have hbs := u32ToLe_u32FromLe h
    rw [hzero] at hbs
    rw [← hbs]
    have hzeros : u32ToLe 0 = List.replicate 4 0 := by decide
    rw [hzeros]
    exact fun b hb => List.eq_of_mem_replicate hb
  · intro hzero
    have hbs : bs = List.replicate 4 0 := List.eq_replicate_iff.mpr ⟨h, hzero⟩
    rw [hbs]
    decide

/-- A NiceHash blob has a nonce field that is not empty. -/
theorem detectsNicehashNonce_iff (blob : Bytes) :
    detectsNicehashNonce blob = true ↔
      43 ≤ blob.length ∧ ∃ b ∈ Bytes.window blob nonceOffset 4, b ≠ 0 := by
  by_cases hlen : 43 ≤ blob.length
  · have hwindow : (Bytes.window blob nonceOffset 4).length = 4 :=
      Bytes.length_window (by simpa [nonceOffset] using hlen)
    simp only [detectsNicehashNonce, readNonce_of_le hlen, bne_iff_ne, ne_eq,
      u32FromLe_eq_zero_iff hwindow, hlen, true_and, not_forall, exists_prop]
  · rw [detectsNicehashNonce_of_short (by omega)]
    simp [hlen]

theorem one_le_div {n d : UInt64} (hd : d ≠ 0) (hle : d ≤ n) : 1 ≤ n / d := by
  have hpos : 0 < d.toNat := Nat.pos_of_ne_zero fun h => hd (UInt64.toNat_inj.mp h)
  rw [UInt64.le_iff_toNat_le, UInt64.toNat_div]
  exact Nat.div_pos (UInt64.le_iff_toNat_le.mp hle) hpos

theorem one_le_decodeTarget {target : String} {difficulty : UInt64}
    (h : decodeTarget target = some difficulty) : 1 ≤ difficulty := by
  unfold decodeTarget at h
  split at h
  · cases h
  · next bytes hbytes =>
      split at h
      · next hlen =>
          dsimp only at h
          split at h
          · cases h
            decide
          · next hdiff =>
              cases h
              refine one_le_div hdiff ?_
              split
              · -- four bytes are at most `u32::MAX`
                next hfour =>
                  have hlt := Bytes.natOfLe_lt bytes
                  rw [hfour] at hlt
                  have hmax : u32Max.toUInt64.toNat = 2 ^ 32 - 1 := rfl
                  rw [UInt64.le_iff_toNat_le, hmax, UInt64.toNat_ofNat']
                  omega
              · have hmax : u64Max.toNat = 2 ^ 64 - 1 := rfl
                have hlt := (UInt64.ofNat (Bytes.natOfLe bytes)).toNat_lt
                rw [UInt64.le_iff_toNat_le, hmax]
                omega
      · cases h

/-! ## Jobs from a pool -/

namespace Job

/-- What the miner takes for granted in a job. -/
structure Sound (job : Job) : Prop where
  algo : job.algo = "rx/0" ∨ job.algo = "randomx" ∨ job.algo = "randomx/0"
  blob : Base16.decode job.blob = some job.blobBytes
  target : decodeTarget job.target = some job.difficulty
  difficulty : 1 ≤ job.difficulty
  nicehash : job.isNicehash = true ↔
    43 ≤ job.blobBytes.length ∧ ∃ b ∈ Bytes.window job.blobBytes nonceOffset 4, b ≠ 0

/-- The job that the fields of a pool's message stand for. -/
structure PoolJob (jobId blob target algo : String) (height : Option UInt64)
    (seedHash : Option String) (job : Job) : Prop where
  fields : job.jobId = jobId ∧ job.blob = blob ∧ job.target = target ∧ job.algo = algo ∧
    job.height = height ∧ job.seedHash = seedHash ∧ job.blockTemplateBlob = none
  sound : job.Sound

theorem poolJob_iff {jobId blob target algo : String} {height : Option UInt64}
    {seedHash : Option String} {job : Job} :
    (ofPoolFields jobId blob target algo height seedHash = some job ∧
        Algorithms.isSupported job.algo = true) ↔
      PoolJob jobId blob target algo height seedHash job := by
  constructor
  · intro h
    obtain ⟨hof, halgo⟩ := h
    unfold ofPoolFields at hof
    split at hof
    · cases hof
    · next bytes hbytes =>
        split at hof
        · cases hof
        · next difficulty htarget =>
            cases hof
            exact
              { fields := ⟨rfl, rfl, rfl, rfl, rfl, rfl, rfl⟩
                sound :=
                  { algo := (Algorithms.isSupported_iff _).mp halgo
                    blob := hbytes
                    target := htarget
                    difficulty := one_le_decodeTarget htarget
                    nicehash := detectsNicehashNonce_iff bytes } }
  · intro h
    obtain ⟨⟨hid, hblob, htarget, halgo, hheight, hseed, htemplate⟩, hsound⟩ := h
    refine ⟨?_, (Algorithms.isSupported_iff _).mpr hsound.algo⟩
    have hnicehash : job.nicehash = detectsNicehashNonce job.blobBytes :=
      Bool.eq_iff_iff.mpr (hsound.nicehash.trans (detectsNicehashNonce_iff _).symm)
    rw [ofPoolFields, ← hblob, ← htarget, hsound.blob, hsound.target, ← hid, ← halgo, ← hheight,
      ← hseed]
    dsimp only
    rw [← hnicehash, ← htemplate]

/-- The job of a job object. -/
structure C3poolJob (obj : Json) (job : Job) : Prop where
  jobId : (obj.get "job_id").bind Json.asStr = some job.jobId
  blob : (obj.get "blob").bind Json.asStr = some job.blob
  job : PoolJob job.jobId job.blob (((obj.get "target").bind Json.asStr).getD "c5a70000")
    (((obj.get "algo").bind Json.asStr).getD "rx/0") ((obj.get "height").bind Json.asU64)
    ((obj.get "seed_hash").bind Json.asStr) job

theorem fromC3poolJob_iff {obj : Json} {job : Job} :
    (fromC3poolJob obj = some job ∧ Algorithms.isSupported job.algo = true) ↔
      C3poolJob obj job := by
  constructor
  · intro h
    obtain ⟨hfrom, halgo⟩ := h
    unfold fromC3poolJob at hfrom
    split at hfrom
    · next jobId blob hid hblob =>
        have hjob := poolJob_iff.mp ⟨hfrom, halgo⟩
        obtain ⟨rfl, rfl, _⟩ := hjob.fields
        exact ⟨hid, hblob, hjob⟩
    · cases hfrom
  · intro h
    have hjob := poolJob_iff.mpr h.job
    rw [fromC3poolJob, h.jobId, h.blob]
    exact hjob

/-- The job of the parameters of `mining.notify`. -/
structure NotifyJob (params : List Json) (job : Job) : Prop where
  length : 4 ≤ params.length
  jobId : params[0]?.bind Json.asStr = some job.jobId
  blob : params[1]?.bind Json.asStr = some job.blob
  target : params[2]?.bind Json.asStr = some job.target
  job : PoolJob job.jobId job.blob job.target ((params[3]?.bind Json.asStr).getD "rx/0")
    (params[4]?.bind Json.asU64) (params[5]?.bind Json.asStr) job

theorem fromNotify_iff {params : List Json} {job : Job} :
    (fromNotify params = some job ∧ Algorithms.isSupported job.algo = true) ↔
      NotifyJob params job := by
  constructor
  · intro h
    obtain ⟨hfrom, halgo⟩ := h
    unfold fromNotify at hfrom
    split at hfrom
    · cases hfrom
    · next hlen =>
        split at hfrom
        · next jobId blob target hid hblob htarget =>
            have hjob := poolJob_iff.mp ⟨hfrom, halgo⟩
            obtain ⟨rfl, rfl, rfl, _⟩ := hjob.fields
            exact ⟨by omega, hid, hblob, htarget, hjob⟩
        · cases hfrom
  · intro h
    have hjob := poolJob_iff.mpr h.job
    have hlen := h.length
    rw [fromNotify, if_neg (by omega), h.jobId, h.blob, h.target]
    exact hjob

end Job

end LiteXmr
