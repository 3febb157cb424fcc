/-
LiteXmr.Lib.Chunks — cutting the numbers below `N` into chunks of one length,
the last one clipped.

Chunk `i` begins at `i * c`, and there is none when that is `N` or more.
`flatMap_items` puts the chunks of `W` parts together again: they are the
numbers up to `W * c`, in order. So with a length that is long enough each
number is in one chunk (`flatMap_items_eq_range`) and in no other
(`pairwise_disjoint`).
-/
import Mathlib.Algebra.Order.Floor.Div
import Mathlib.Data.List.Nodup

namespace LiteXmr.Chunks

/-- The start and the length of chunk `i`. -/
def chunk (N c i : Nat) : Option (Nat × Nat) :=
  if i * c < N then some (i * c, min (N - i * c) c) else none

def chunks (N c W : Nat) : List (Nat × Nat) := (List.range W).filterMap (chunk N c)

def items (range : Nat × Nat) : List Nat := List.range' range.1 range.2

theorem flatMap_items (N c W : Nat) :
    (chunks N c W).flatMap items = List.range (min N (W * c)) := by
  induction W with
  | zero => simp [chunks]
  | succ W ih =>
      have hstep : chunks N c (W + 1) = chunks N c W ++ (chunk N c W).toList := by
        rw [chunks, List.range_succ, List.filterMap_append]
        rfl
      rw [hstep, List.flatMap_append, ih, chunk]
      split
      · next hlt =>
          have hmin : min N (W * c) = W * c := by omega
          have hnext : min N ((W + 1) * c) = W * c + min (N - W * c) c := by
            rw [Nat.succ_mul]
            omega
          rw [hmin, hnext, List.range_add, List.range_eq_range', List.range_eq_range']
          simp [items, List.range'_eq_map_range]
      · next hge =>
          have hnext : min N ((W + 1) * c) = min N (W * c) := by
            rw [Nat.succ_mul]
            omega
          rw [hnext, Option.toList_none, List.flatMap_nil, List.append_nil]

theorem le_mul_ceilDiv (N : Nat) {W : Nat} (hW : 0 < W) : N ≤ W * (N ⌈/⌉ W) := by
  rw [← smul_eq_mul]
  exact le_smul_ceilDiv hW

section

variable {N c W : Nat} (h : N ≤ W * c)

include h

theorem flatMap_items_eq_range : (chunks N c W).flatMap items = List.range N := by
  rw [flatMap_items, Nat.min_eq_left h]

theorem pairwise_disjoint :
    (chunks N c W).Pairwise fun a b => List.Disjoint (items a) (items b) := by
  have hnodup : ((chunks N c W).flatMap items).Nodup := by
    rw [flatMap_items_eq_range h]
    exact List.nodup_range
  exact (List.nodup_flatMap.mp hnodup).2

end

theorem le_of_mem {N c W : Nat} {range : Nat × Nat} (h : range ∈ chunks N c W) :
    range.1 + range.2 ≤ N := by
  obtain ⟨i, -, hchunk⟩ := List.mem_filterMap.mp h
  unfold chunk at hchunk
  split at hchunk
  · cases hchunk
    simp only
    omega
  · cases hchunk

end LiteXmr.Chunks
