/-
LiteXmr.Lib.Bytes — byte strings as lists: windows that are read and
overwritten in place, and integers in both byte orders.

* `overwrite xs off w` replaces `w.length` elements from `off` on, the way
  `xs[off..off + n].copy_from_slice(&w)` does on a slice that is long
  enough. `window_overwrite`, `overwrite_overwrite` and `getElem?_overwrite`
  say what a later read sees.
* `natOfLe` reads a byte string as a little-endian number and `leOfNat n`
  writes one in `n` bytes; they are inverse on the numbers that fit
  (`natOfLe_leOfNat`, `leOfNat_natOfLe`).
* `natOfBe` and `beOfNat` do the same with the most significant byte first.
-/
import Mathlib.Algebra.Ring.Nat
import Mathlib.Tactic.Common
import Mathlib.Data.List.Basic

namespace LiteXmr

abbrev Bytes := List UInt8

namespace Bytes

variable {α : Type}

/-! ## Windows -/

/-- The `n` elements from `off` on; `xs[off..off + n]`. -/
def window (xs : List α) (off n : Nat) : List α := (xs.drop off).take n

/-- Replace the elements from `off` on by `w`. -/
def overwrite (xs : List α) (off : Nat) (w : List α) : List α :=
  xs.take off ++ w ++ xs.drop (off + w.length)

theorem length_window {xs : List α} {off n : Nat} (h : off + n ≤ xs.length) :
    (window xs off n).length = n := by
  simp only [window, List.length_take, List.length_drop]
  omega

/-- A window that does not fit is shorter than asked. -/
theorem length_window_lt {xs : List α} {off n : Nat} (hn : 0 < n)
    (h : xs.length < off + n) : (window xs off n).length < n := by
  simp only [window, List.length_take, List.length_drop]
  omega

theorem getElem?_window (xs : List α) {off n k : Nat} (hk : k < n) :
    (window xs off n)[k]? = xs[off + k]? := by
  rw [window, List.getElem?_take, if_pos hk, List.getElem?_drop]

theorem length_overwrite {xs w : List α} {off : Nat}
    (h : off + w.length ≤ xs.length) : (overwrite xs off w).length = xs.length := by
  simp only [overwrite, List.length_append, List.length_take, List.length_drop]
  omega

/-- Reading back the window that was written. -/
theorem window_overwrite {xs w : List α} {off : Nat}
    (h : off + w.length ≤ xs.length) : window (overwrite xs off w) off w.length = w := by
  have hlen : (xs.take off).length = off := by
    rw [List.length_take]; omega
  rw [window, overwrite, List.append_assoc, List.drop_left' hlen, List.take_left' rfl]

/-- The last write to a window wins. -/
theorem overwrite_overwrite {xs w w' : List α} {off : Nat}
    (h : off + w.length ≤ xs.length) (hw : w'.length = w.length) :
    overwrite (overwrite xs off w) off w' = overwrite xs off w' := by
  have hlen : (xs.take off).length = off := by
    rw [List.length_take]; omega
  have htake : (overwrite xs off w).take off = xs.take off := by
    rw [overwrite, List.append_assoc, List.take_left' hlen]
  have hdrop : (overwrite xs off w).drop (off + w.length) = xs.drop (off + w.length) := by
    rw [overwrite, List.drop_left' (by simp [hlen])]
  rw [overwrite, htake, hw, hdrop, overwrite, hw]

/-- Elements outside the window are untouched. -/
theorem getElem?_overwrite {xs w : List α} {off : Nat}
    (h : off + w.length ≤ xs.length) {k : Nat} (hk : k < off ∨ off + w.length ≤ k) :
    (overwrite xs off w)[k]? = xs[k]? := by
  have hlen : (xs.take off).length = off := by
    rw [List.length_take]; omega
  rw [overwrite]
  rcases hk with hk | hk
  · rw [List.append_assoc, List.getElem?_append_left (by omega), List.getElem?_take,
      if_pos hk]
  · rw [List.getElem?_append_right (by simp [hlen]; omega), List.getElem?_drop]
    congr 1
    simp [hlen]
    omega

/-! ## Little-endian integers -/

/-- The number a byte string spells, least significant byte first. -/
def natOfLe : Bytes → Nat
  | [] => 0
  | b :: bs => b.toNat + 256 * natOfLe bs

/-- The `n` low bytes of a number, least significant byte first. -/
def leOfNat : Nat → Nat → Bytes
  | 0, _ => []
  | n + 1, x => UInt8.ofNat x :: leOfNat n (x / 256)

@[simp] theorem length_leOfNat (n x : Nat) : (leOfNat n x).length = n := by
  induction n generalizing x with
  | zero => rfl
  | succ n ih => simp [leOfNat, ih]

theorem natOfLe_leOfNat (n x : Nat) : natOfLe (leOfNat n x) = x % 256 ^ n := by
  induction n generalizing x with
  | zero => simp [leOfNat, natOfLe, Nat.mod_one]
  | succ n ih =>
      rw [leOfNat, natOfLe, ih, Nat.pow_succ, Nat.mul_comm (256 ^ n) 256, Nat.mod_mul]
      simp

theorem leOfNat_natOfLe (bs : Bytes) : leOfNat bs.length (natOfLe bs) = bs := by
  induction bs with
  | nil => rfl
  | cons b bs ih =>
      have hb := b.toNat_lt
      have hdiv : (b.toNat + 256 * natOfLe bs) / 256 = natOfLe bs := by omega
      rw [List.length_cons, natOfLe, leOfNat, hdiv, ih]
      congr 1
      apply UInt8.toNat_inj.mp
      simp only [UInt8.toNat_ofNat']
      omega

theorem natOfLe_lt (bs : Bytes) : natOfLe bs < 256 ^ bs.length := by
  induction bs with
  | nil => simp [natOfLe]
  | cons b bs ih =>
      have hb := b.toNat_lt
      rw [natOfLe, List.length_cons, Nat.pow_succ]
      omega

theorem natOfLe_append (bs cs : Bytes) :
    natOfLe (bs ++ cs) = natOfLe bs + 256 ^ bs.length * natOfLe cs := by
  induction bs with
  | nil => simp [natOfLe]
  | cons b bs ih =>
      rw [List.cons_append, natOfLe, natOfLe, ih, List.length_cons, Nat.pow_succ, Nat.mul_add,
        Nat.mul_comm (256 ^ bs.length) 256, Nat.mul_assoc, Nat.add_assoc]

/-! ## Big-endian integers -/

/-- The number a byte string spells, most significant byte first. -/
def natOfBe (bs : Bytes) : Nat := natOfLe bs.reverse

/-- The `n` low bytes of a number, most significant byte first. -/
def beOfNat (n x : Nat) : Bytes := (leOfNat n x).reverse

@[simp] theorem length_beOfNat (n x : Nat) : (beOfNat n x).length = n := by
  rw [beOfNat, List.length_reverse, length_leOfNat]

theorem natOfBe_beOfNat (n x : Nat) : natOfBe (beOfNat n x) = x % 256 ^ n := by
  rw [natOfBe, beOfNat, List.reverse_reverse, natOfLe_leOfNat]

end Bytes

end LiteXmr
