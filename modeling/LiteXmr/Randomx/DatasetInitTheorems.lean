/-
LiteXmr.Randomx.DatasetInitTheorems — the calls of `randomx_init_dataset` tile
the dataset.

`initCalls_eq` says that the arithmetic of the machine computes what arithmetic
without bounds would: the chunks of `Lib/Chunks.lean`. A product that does not
fit is saturated, and then the worker has nothing to do, as it should.
-/
import LiteXmr.Lib.Chunks
import LiteXmr.Randomx.DatasetInit

namespace LiteXmr.Randomx

variable {m : DataModel}

/-! ## The arithmetic -/

theorem ulongBits_le (m : DataModel) : m.ulongBits ≤ m.usizeBits := by
  cases m with
  | ilp32 => decide
  | llp64 => decide
  | lp64 => decide

theorem le_ulongBits (m : DataModel) : 32 ≤ m.ulongBits := by
  cases m with
  | ilp32 => decide
  | llp64 => decide
  | lp64 => decide

theorem lt_two_pow_ulongBits {n : Nat} (h : n ≤ 64) : n < 2 ^ m.ulongBits :=
  calc n < 2 ^ 32 := by omega
    _ ≤ 2 ^ m.ulongBits := Nat.pow_le_pow_right (by decide) (le_ulongBits m)

theorem lt_two_pow_usizeBits {n : Nat} (h : n ≤ 64) : n < 2 ^ m.usizeBits :=
  calc n < 2 ^ m.ulongBits := lt_two_pow_ulongBits h
    _ ≤ 2 ^ m.usizeBits := Nat.pow_le_pow_right (by decide) (ulongBits_le m)

theorem toNat_clamp {w : Nat} (x low high : BitVec w) (h : low.toNat ≤ high.toNat) :
    (clamp x low high).toNat = min (max x.toNat low.toNat) high.toNat := by
  unfold clamp
  simp only [BitVec.lt_def]
  split
  · omega
  · split
    · omega
    · omega

theorem toNat_minOf {w : Nat} (x y : BitVec w) :
    (minOf x y).toNat = min x.toNat y.toNat := by
  unfold minOf
  simp only [BitVec.le_def]
  split
  · omega
  · omega

theorem ceilDiv_of_mod_pos {x y : Nat} (h : 0 < x % y) (hy : 0 < y) :
    x ⌈/⌉ y = x / y + 1 := by
  have hsplit := Nat.div_add_mod x y
  have hlt := Nat.mod_lt x hy
  have hnext : (x / y + 1) * y = y * (x / y) + y := by rw [Nat.succ_mul, Nat.mul_comm]
  have hafter : (x / y + 1 + 1) * y = y * (x / y) + y + y := by rw [Nat.succ_mul, hnext]
  rw [Nat.ceilDiv_eq_add_pred_div]
  exact Nat.div_eq_of_lt_le (by omega) (by omega)

theorem ceilDiv_of_mod_eq_zero {x y : Nat} (h : x % y = 0) (hy : 0 < y) : x ⌈/⌉ y = x / y := by
  have hsplit := Nat.div_add_mod x y
  have hsame : x / y * y = y * (x / y) := Nat.mul_comm _ _
  have hnext : (x / y + 1) * y = y * (x / y) + y := by rw [Nat.succ_mul, hsame]
  rw [Nat.ceilDiv_eq_add_pred_div]
  exact Nat.div_eq_of_lt_le (by omega) (by omega)

/-- The quotient is increased only when it is smaller than the dividend. -/
theorem toNat_divCeil {w : Nat} (x : BitVec w) {y : BitVec w} (h : 0 < y.toNat) :
    (divCeil x y).toNat = x.toNat ⌈/⌉ y.toNat := by
  have hzero : (0 : BitVec w).toNat = 0 := BitVec.toNat_zero
  have hunit : (1 : BitVec w).toNat = 1 % 2 ^ w := rfl
  unfold divCeil
  simp only [BitVec.lt_def, BitVec.toNat_umod, hzero]
  split
  · next hmod =>
      have hx : 0 < x.toNat := Nat.lt_of_lt_of_le hmod (Nat.mod_le _ _)
      have hy : 1 < y.toNat := by
        by_contra hle
        have hone : y.toNat = 1 := by omega
        rw [hone, Nat.mod_one] at hmod
        exact absurd hmod (Nat.lt_irrefl 0)
      have hquot : x.toNat / y.toNat < x.toNat := Nat.div_lt_self hx hy
      have hlt := x.isLt
      rw [ceilDiv_of_mod_pos hmod h, BitVec.toNat_add, BitVec.toNat_udiv, hunit, Nat.add_mod_mod,
        Nat.mod_eq_of_lt (by omega)]
  · next hmod => rw [ceilDiv_of_mod_eq_zero (by omega) h, BitVec.toNat_udiv]

theorem toNat_saturatingMul {w : Nat} (x y : BitVec w) :
    (saturatingMul x y).toNat = min (x.toNat * y.toNat) (2 ^ w - 1) := by
  unfold saturatingMul
  split
  · rw [BitVec.toNat_mul, Nat.mod_eq_of_lt (by assumption)]
    omega
  · rw [BitVec.toNat_allOnes]
    omega

/-! ## The calls -/

variable (totalItems : CULong m) (threads : USizeOf m)

theorem toNat_workers : (workers threads).toNat = min (max threads.toNat 1) 64 := by
  have hone : (1 : USizeOf m).toNat = 1 :=
    Nat.mod_eq_of_lt (lt_two_pow_usizeBits (by decide))
  have hmost : (64 : USizeOf m).toNat = 64 := Nat.mod_eq_of_lt (lt_two_pow_usizeBits (by decide))
  rw [workers, toNat_clamp _ _ _ (by rw [hone, hmost]; decide), hone, hmost]

theorem workers_pos : 0 < (workers threads).toNat := by
  rw [toNat_workers]
  omega

theorem toNat_chunk :
    (chunk totalItems threads).toNat = totalItems.toNat ⌈/⌉ (workers threads).toNat := by
  have hwide : (totalItems.setWidth m.usizeBits).toNat = totalItems.toNat := by
    rw [BitVec.toNat_setWidth, Nat.mod_eq_of_lt]
    exact Nat.lt_of_lt_of_le totalItems.isLt (Nat.pow_le_pow_right (by decide) (ulongBits_le m))
  have hle : totalItems.toNat ⌈/⌉ (workers threads).toNat ≤ totalItems.toNat := by
    rw [ceilDiv_le_iff_le_smul (workers_pos threads), smul_eq_mul]
    exact Nat.le_mul_of_pos_left _ (workers_pos threads)
  rw [chunk, BitVec.toNat_setWidth, toNat_divCeil _ (workers_pos threads), hwide,
    Nat.mod_eq_of_lt (Nat.lt_of_le_of_lt hle totalItems.isLt)]

/-- The start and the length of a call as numbers. -/
def InitCall.bounds (call : InitCall m) : Nat × Nat := (call.start.toNat, call.count.toNat)

/-- A worker computes its chunk, also where the product does not fit. -/
theorem initCall_eq {i : Nat} (h : i < (workers threads).toNat) :
    (initCall totalItems threads (BitVec.ofNat _ i)).map InitCall.bounds
      = Chunks.chunk totalItems.toNat (chunk totalItems threads).toNat i := by
  have hi : i ≤ 64 := by
    rw [toNat_workers] at h
    omega
  have hindex : ((BitVec.ofNat m.usizeBits i).setWidth m.ulongBits).toNat = i := by
    rw [BitVec.toNat_setWidth, BitVec.toNat_ofNat, Nat.mod_eq_of_lt (lt_two_pow_usizeBits hi),
      Nat.mod_eq_of_lt (lt_two_pow_ulongBits hi)]
  have hstart := toNat_saturatingMul ((BitVec.ofNat m.usizeBits i).setWidth m.ulongBits)
    (chunk totalItems threads)
  rw [hindex] at hstart
  have htotal := totalItems.isLt
  unfold initCall Chunks.chunk
  simp only [BitVec.lt_def]
  split
  · next hlt =>
      have hexact : i * (chunk totalItems threads).toNat < totalItems.toNat := by omega
      rw [if_pos hexact, Option.map_some, InitCall.bounds, toNat_minOf,
        BitVec.toNat_sub_of_le (BitVec.le_of_lt (BitVec.lt_def.mpr hlt)), hstart,
        Nat.min_eq_left (by omega)]
  · next hge => rw [if_neg (by omega), Option.map_none]

/-- The arithmetic of the machine does what arithmetic without bounds does. -/
theorem initCalls_eq :
    (initCalls totalItems threads).map InitCall.bounds
      = Chunks.chunks totalItems.toNat (totalItems.toNat ⌈/⌉ (workers threads).toNat)
          (workers threads).toNat := by
  rw [initCalls, List.map_filterMap, Chunks.chunks, ← toNat_chunk]
  refine List.filterMap_congr fun i hi => ?_
  exact initCall_eq totalItems threads (List.mem_range.mp hi)

/-! ## The dataset -/

/-- The items that a call computes. -/
def InitCall.items (call : InitCall m) : List Nat := Chunks.items call.bounds

theorem chunks_fit :
    totalItems.toNat
      ≤ (workers threads).toNat * (totalItems.toNat ⌈/⌉ (workers threads).toNat) :=
  Chunks.le_mul_ceilDiv _ (workers_pos threads)

/-- Put together in the order of the workers, the calls compute the items one by one. -/
theorem flatMap_items :
    (initCalls totalItems threads).flatMap InitCall.items = List.range totalItems.toNat := by
  have hitems : (initCalls totalItems threads).flatMap InitCall.items
      = ((initCalls totalItems threads).map InitCall.bounds).flatMap Chunks.items := by
    rw [List.flatMap_map]
    rfl
  rw [hitems, initCalls_eq, Chunks.flatMap_items_eq_range (chunks_fit totalItems threads)]

/-- In whatever order the calls and their items come, each item is computed once. -/
theorem count_of_perm {done : List Nat}
    (h : done.Perm ((initCalls totalItems threads).flatMap InitCall.items)) (item : Nat) :
    done.count item = if item < totalItems.toNat then 1 else 0 := by
  rw [h.count_eq, flatMap_items]
  exact List.count_range

/-- The calls tile the dataset: no item is in two of them, their items are those of the dataset,
and none reaches over the end of it; and all of this is computed without an overflow that would
change it. -/
theorem dataset_tiled (m : DataModel) (totalItems : CULong m) (threads : USizeOf m) :
    (initCalls totalItems threads).Pairwise (fun a b => List.Disjoint a.items b.items) ∧
    (∀ item, (∃ call ∈ initCalls totalItems threads, item ∈ call.items)
      ↔ item < totalItems.toNat) ∧
    (∀ call ∈ initCalls totalItems threads,
      call.start.toNat + call.count.toNat ≤ totalItems.toNat) ∧
    (workers threads).toNat = min (max threads.toNat 1) 64 ∧
    (initCalls totalItems threads).map InitCall.bounds
      = Chunks.chunks totalItems.toNat (totalItems.toNat ⌈/⌉ (workers threads).toNat)
          (workers threads).toNat := by
  refine ⟨?_, fun item => ?_, fun call hcall => ?_, toNat_workers threads,
    initCalls_eq totalItems threads⟩
  · have hdisjoint := Chunks.pairwise_disjoint (chunks_fit totalItems threads)
    rw [← initCalls_eq, List.pairwise_map] at hdisjoint
    exact hdisjoint
  · rw [← List.mem_flatMap, flatMap_items, List.mem_range]
  · have hmem := List.mem_map_of_mem (f := InitCall.bounds) hcall
    rw [initCalls_eq] at hmem
    exact Chunks.le_of_mem hmem

end LiteXmr.Randomx
