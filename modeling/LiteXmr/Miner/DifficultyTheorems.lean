/-
LiteXmr.Miner.DifficultyTheorems — which hashes are shares.

A pool sends a target; the job keeps a difficulty, the reciprocal of the target
rounded down, and the share test compares with the reciprocal of the difficulty.
All of it is about the top eight bytes of a hash (`hashTop`) and the reciprocal
of `u64::MAX` (`Lib.Reciprocal`).

* `share_test_iff` — the test is exact: it decides the product condition of a
  difficulty, so it is sound for the whole 256-bit value and monotone.
* `meets_target_accepted` — rounding errs on the accepting side: whatever meets
  the target of the pool passes.
* `exact_target_iff` — for a target of eight bytes the threshold is the target
  itself exactly when the target is the reciprocal of a difficulty; otherwise
  it lies above, by less than one part in the difficulty.
-/
import LiteXmr.Lib.Reciprocal
import LiteXmr.Miner.Batch

namespace LiteXmr

/-! ## The share test -/

/-- The top 64 bits of a hash. -/
def hashTop (hash : Hash) : Nat := Bytes.natOfLe (Bytes.window hash.val 24 8)

/-- A hash as a little-endian number. -/
def hashValue (hash : Hash) : Nat := Bytes.natOfLe hash.val

theorem hashTop_lt (hash : Hash) : hashTop hash < 2 ^ 64 := by
  have hlt := Bytes.natOfLe_lt (Bytes.window hash.val 24 8)
  rwa [Bytes.length_window (by rw [hash.property]; decide)] at hlt

/-- The other 24 bytes lie below the top. -/
theorem hashValue_lt (hash : Hash) : hashValue hash < (hashTop hash + 1) * 2 ^ 192 := by
  have hlen : (hash.val.take 24).length = 24 := by
    rw [List.length_take, hash.property]
    rfl
  have htop : hash.val.drop 24 = Bytes.window hash.val 24 8 := by
    rw [Bytes.window, List.take_of_length_le]
    rw [List.length_drop, hash.property]
    decide
  have hsplit : hashValue hash = Bytes.natOfLe (hash.val.take 24) + 256 ^ 24 * hashTop hash := by
    rw [hashValue, hashTop, ← htop]
    nth_rewrite 1 [← List.take_append_drop 24 hash.val]
    rw [Bytes.natOfLe_append, hlen]
  have hlow := Bytes.natOfLe_lt (hash.val.take 24)
  rw [hlen] at hlow
  rw [hsplit]
  omega

/-- The test is the comparison with the reciprocal of the difficulty. -/
theorem checkHashDifficulty_iff (hash : Hash) {difficulty : UInt64} (hd : 0 < difficulty.toNat) :
    checkHashDifficulty hash.val difficulty = true ↔
      hashTop hash < (2 ^ 64 - 1) / difficulty.toNat := by
  have hlen : ¬ (hash.val.length < 32 ∨ difficulty = 0) := by
    rw [hash.property]
    rintro (hlt | rfl)
    · exact absurd hlt (by decide)
    · cases hd
  have hmax : u64Max.toNat = 2 ^ 64 - 1 := rfl
  have htop : Bytes.natOfLe (Bytes.window hash.val 24 8) % 2 ^ 64 = hashTop hash :=
    Nat.mod_eq_of_lt (hashTop_lt hash)
  rw [checkHashDifficulty, if_neg hlen, decide_eq_true_eq, UInt64.lt_iff_toNat_lt,
    UInt64.toNat_div, hmax, UInt64.toNat_ofNat', htop]

/-- A product with the top word bounds the product with the whole value. -/
theorem hashValue_mul_lt {hash : Hash} {d : Nat} (hd : 0 < d)
    (h : (hashTop hash + 1) * d < 2 ^ 64) : hashValue hash * d < 2 ^ 256 := by
  calc hashValue hash * d
      < (hashTop hash + 1) * 2 ^ 192 * d := Nat.mul_lt_mul_of_pos_right (hashValue_lt hash) hd
    _ = (hashTop hash + 1) * d * 2 ^ 192 := Nat.mul_right_comm _ _ _
    _ < 2 ^ 64 * 2 ^ 192 := Nat.mul_lt_mul_of_pos_right h (by decide)
    _ = 2 ^ 256 := by decide

theorem share_test_iff (hash : Hash) (difficulty : UInt64) (hd : 1 ≤ difficulty.toNat) :
    (checkHashDifficulty hash.val difficulty = true ↔
        (hashTop hash + 1) * difficulty.toNat < 2 ^ 64) ∧
      (checkHashDifficulty hash.val difficulty = true →
        hashValue hash * difficulty.toNat < 2 ^ 256) ∧
      ∀ lower : UInt64, 1 ≤ lower.toNat → lower.toNat ≤ difficulty.toNat →
        checkHashDifficulty hash.val difficulty = true →
          checkHashDifficulty hash.val lower = true := by
  have hproduct : ∀ d : UInt64, 1 ≤ d.toNat →
      (checkHashDifficulty hash.val d = true ↔ (hashTop hash + 1) * d.toNat < 2 ^ 64) := by
    intro d hd
    rw [checkHashDifficulty_iff hash hd, Reciprocal.lt_div_iff hd]
    omega
  refine ⟨hproduct difficulty hd, fun h => ?_, fun lower hlower hle h => ?_⟩
  · exact hashValue_mul_lt hd ((hproduct difficulty hd).mp h)
  · rw [hproduct lower hlower]
    exact Nat.lt_of_le_of_lt (Nat.mul_le_mul_left _ hle) ((hproduct difficulty hd).mp h)

/-- The largest top word that passes at difficulty 2. -/
theorem share_test_two :
    ∃ hash : Hash, hashTop hash = 2 ^ 63 - 2 ∧ checkHashDifficulty hash.val 2 = true ∧
      hashValue hash * 2 < 2 ^ 256 := by
  let hash : Hash := ⟨List.replicate 24 255 ++ Bytes.leOfNat 8 (2 ^ 63 - 2), by decide⟩
  have htop : hashTop hash = 2 ^ 63 - 2 := by decide
  obtain ⟨hiff, hsound, _⟩ := share_test_iff hash 2 (by decide)
  have hcheck : checkHashDifficulty hash.val 2 = true := by
    rw [hiff, htop]
    decide
  exact ⟨hash, htop, hcheck, hsound hcheck⟩

/-! ## Targets -/

/-- A well-formed target has four or eight bytes; its difficulty is the
reciprocal in that width. -/
theorem decodeTarget_eq {target : String} {bytes : Bytes}
    (hdecode : Base16.decode target = some bytes) (hlen : bytes.length = 4 ∨ bytes.length = 8)
    (ht : 1 ≤ Bytes.natOfLe bytes) :
    ∃ difficulty, decodeTarget target = some difficulty ∧
      difficulty.toNat = (256 ^ bytes.length - 1) / Bytes.natOfLe bytes := by
  have hlt := Bytes.natOfLe_lt bytes
  have hvalue : (UInt64.ofNat (Bytes.natOfLe bytes)).toNat = Bytes.natOfLe bytes := by
    rw [UInt64.toNat_ofNat', Nat.mod_eq_of_lt]
    rcases hlen with h | h <;> rw [h] at hlt <;> omega
  have hne : UInt64.ofNat (Bytes.natOfLe bytes) ≠ 0 := by
    intro hzero
    rw [hzero] at hvalue
    simp only [UInt64.toNat_zero] at hvalue
    omega
  simp only [decodeTarget, hdecode, if_pos hlen, if_neg hne]
  refine ⟨_, rfl, ?_⟩
  rw [UInt64.toNat_div, hvalue]
  rcases hlen with h | h
  · rw [if_pos h, h]
    rfl
  · rw [if_neg (by omega), h]
    rfl

/-- A hash that meets the target passes: the top word below a target of eight
bytes, or its upper half below a target of four. -/
theorem meets_target_accepted {target : String} {bytes : Bytes}
    (hdecode : Base16.decode target = some bytes) (hlen : bytes.length = 4 ∨ bytes.length = 8)
    (ht : 1 ≤ Bytes.natOfLe bytes) (hash : Hash) :
    ∃ difficulty, decodeTarget target = some difficulty ∧
      (bytes.length = 8 → hashTop hash < Bytes.natOfLe bytes →
        checkHashDifficulty hash.val difficulty = true) ∧
      (bytes.length = 4 → hashTop hash >>> 32 < Bytes.natOfLe bytes →
        checkHashDifficulty hash.val difficulty = true) := by
  have hlt := Bytes.natOfLe_lt bytes
  obtain ⟨difficulty, htarget, hd⟩ := decodeTarget_eq hdecode hlen ht
  have hpos : 0 < difficulty.toNat := by
    rw [hd]
    exact Nat.div_pos (by omega) ht
  refine ⟨difficulty, htarget, fun height hmeets => ?_, fun hfour hmeets => ?_⟩
  · rw [checkHashDifficulty_iff hash hpos, hd, height]
    rw [height] at hlt
    exact Nat.lt_of_lt_of_le hmeets (Reciprocal.le_div_div ht (by omega))
  · -- a threshold of the upper half, in both widths
    have hproduct : Bytes.natOfLe bytes * difficulty.toNat ≤ 2 ^ 32 - 1 := by
      rw [hd, hfour]
      exact Nat.mul_div_le _ _
    have hwide : Bytes.natOfLe bytes * 2 ^ 32 ≤ (2 ^ 64 - 1) / difficulty.toNat := by
      rw [Nat.le_div_iff_mul_le hpos, Nat.mul_right_comm]
      omega
    rw [Nat.shiftRight_eq_div_pow, Nat.div_lt_iff_lt_mul (by decide)] at hmeets
    rw [checkHashDifficulty_iff hash hpos]
    exact Nat.lt_of_lt_of_le hmeets hwide

/-- The default target of a job object, and a hash just below it. -/
theorem meets_target_accepted_default :
    ∃ hash : Hash, hashTop hash >>> 32 < 0xa7c5 ∧
      ∃ difficulty, decodeTarget "c5a70000" = some difficulty ∧
        checkHashDifficulty hash.val difficulty = true := by
  let hash : Hash := ⟨List.replicate 24 255 ++ Bytes.leOfNat 8 0xa7c4ffffffff, by decide⟩
  have htop : hashTop hash >>> 32 < 0xa7c5 := by decide
  obtain ⟨difficulty, htarget, _, hfour⟩ :=
    meets_target_accepted (show Base16.decode "c5a70000" = some [0xc5, 0xa7, 0, 0] by decide)
      (by decide) (by decide) hash
  exact ⟨hash, htop, difficulty, htarget, hfour rfl htop⟩

/-- A hash with a given top word. -/
theorem exists_hashTop_eq {top : Nat} (h : top < 2 ^ 64) : ∃ hash : Hash, hashTop hash = top := by
  have hlen : (List.replicate 24 0 ++ Bytes.leOfNat 8 top).length = hashSize := by
    rw [List.length_append, List.length_replicate, Bytes.length_leOfNat]
    rfl
  refine ⟨⟨_, hlen⟩, ?_⟩
  have hwindow : Bytes.window (List.replicate 24 (0 : UInt8) ++ Bytes.leOfNat 8 top) 24 8
      = Bytes.leOfNat 8 top := by
    rw [Bytes.window, List.drop_left' (by rw [List.length_replicate]),
      List.take_of_length_le (Nat.le_of_eq (Bytes.length_leOfNat 8 top))]
  have hfits : top < 256 ^ 8 := by omega
  unfold hashTop
  rw [hwindow, Bytes.natOfLe_leOfNat, Nat.mod_eq_of_lt hfits]

/-- What becomes of a target of eight bytes on the way through the difficulty, its
reciprocal: the test compares with a threshold, the reciprocal of that. It is not below
the target, exceeds it by less than one part in the difficulty, and keeps every hash
out that does not meet the target exactly when the target is the reciprocal of a
difficulty, as all targets below `2^32` are. -/
theorem exact_target_iff {target : String} {bytes : Bytes}
    (hdecode : Base16.decode target = some bytes) (hlen : bytes.length = 8)
    (ht : 1 ≤ Bytes.natOfLe bytes) :
    ∃ (difficulty : UInt64) (threshold : Nat), decodeTarget target = some difficulty ∧
      difficulty.toNat = (2 ^ 64 - 1) / Bytes.natOfLe bytes ∧
      threshold = (2 ^ 64 - 1) / difficulty.toNat ∧
      (∀ hash : Hash, checkHashDifficulty hash.val difficulty = true ↔
        hashTop hash < threshold) ∧
      Bytes.natOfLe bytes ≤ threshold ∧
      threshold * difficulty.toNat < Bytes.natOfLe bytes * (difficulty.toNat + 1) ∧
      ((∀ hash : Hash, checkHashDifficulty hash.val difficulty = true →
          hashTop hash < Bytes.natOfLe bytes) ↔
        ∃ d, 0 < d ∧ Bytes.natOfLe bytes = (2 ^ 64 - 1) / d) ∧
      (Bytes.natOfLe bytes < 2 ^ 32 → threshold = Bytes.natOfLe bytes) := by
  have hlt := Bytes.natOfLe_lt bytes
  rw [hlen] at hlt
  obtain ⟨difficulty, htarget, hd⟩ := decodeTarget_eq hdecode (Or.inr hlen) ht
  rw [hlen] at hd
  have hd : difficulty.toNat = (2 ^ 64 - 1) / Bytes.natOfLe bytes := hd
  generalize htop : Bytes.natOfLe bytes = t at *
  have hpos : 0 < difficulty.toNat := by
    rw [hd]
    exact Nat.div_pos (by omega) ht
  have hiff := fun hash => checkHashDifficulty_iff hash hpos
  have hle : t ≤ (2 ^ 64 - 1) / difficulty.toNat := by
    rw [hd]
    exact Reciprocal.le_div_div ht (by omega)
  refine ⟨difficulty, (2 ^ 64 - 1) / difficulty.toNat, htarget, hd, rfl, hiff, hle, ?_, ?_,
    fun hsmall => ?_⟩
  · rw [hd]
    exact Reciprocal.div_div_mul_lt ht
  · rw [← Reciprocal.div_div_eq_iff ht (by omega), ← hd]
    constructor
    · intro hexact
      by_contra hne
      -- a hash with the target as its top word is between the two
      obtain ⟨hash, hash_top⟩ := exists_hashTop_eq (show t < 2 ^ 64 by omega)
      have hcheck := (hiff hash).mpr (by omega)
      have := hexact hash hcheck
      omega
    · intro hexact hash hcheck
      rw [← hexact]
      exact (hiff hash).mp hcheck
  · rw [hd]
    refine Reciprocal.div_div_eq_of_le_div ht ((Nat.le_div_iff_mul_le ht).mpr ?_)
    have : t * t ≤ (2 ^ 32 - 1) * (2 ^ 32 - 1) := Nat.mul_le_mul (by omega) (by omega)
    omega

/-- The target of difficulty 2. -/
theorem exact_target_two :
    ∃ difficulty : UInt64, decodeTarget "ffffffffffffff7f" = some difficulty ∧
      ∀ hash : Hash, checkHashDifficulty hash.val difficulty = true →
        hashTop hash < 2 ^ 63 - 1 := by
  obtain ⟨difficulty, threshold, htarget, _, _, _, _, _, hexact, _⟩ :=
    exact_target_iff (show Base16.decode "ffffffffffffff7f"
      = some [255, 255, 255, 255, 255, 255, 255, 127] by decide) rfl (by decide)
  exact ⟨difficulty, htarget, hexact.mpr ⟨2, by decide, by decide⟩⟩

/-- A target above the half of the range has the difficulty 1, at which all but
the largest top word pass. -/
theorem share_above_exact_target :
    ∃ hash : Hash, hashTop hash = 2 ^ 64 - 2 ∧
      Base16.decode "0100000000000080" = some (Bytes.leOfNat 8 (2 ^ 63 + 1)) ∧
      decodeTarget "0100000000000080" = some 1 ∧ checkHashDifficulty hash.val 1 = true ∧
      ¬ hashTop hash < 2 ^ 63 + 1 := by
  obtain ⟨hash, htop⟩ := exists_hashTop_eq (show 2 ^ 64 - 2 < 2 ^ 64 by decide)
  have hcheck : checkHashDifficulty hash.val 1 = true := by
    rw [checkHashDifficulty_iff hash (by decide), htop]
    decide
  exact ⟨hash, htop, by decide, by decide, hcheck, by rw [htop]; decide⟩

end LiteXmr
