/-
LiteXmr.Lib.Reciprocal — the reciprocal `d ↦ m / d` of natural numbers,
rounded down.

Between one and `m` the reciprocal is antitone and its own adjoint
(`le_div_comm`), so taking it twice goes up (`le_div_div`) and taking it three
times is taking it once (`div_div_div`). A number survives being taken twice
exactly when it is a reciprocal (`div_div_eq_iff`), and otherwise it grows by
less than one part in its reciprocal (`div_div_mul_lt`). All numbers up to the
root of `m` survive (`div_div_eq_of_le_div`).
-/
import Mathlib.Algebra.Ring.Nat
import Mathlib.Tactic.Common

namespace LiteXmr.Reciprocal

variable {m d t h : Nat}

/-- Below the reciprocal, as a product. -/
theorem lt_div_iff (hd : 0 < d) : h < m / d ↔ (h + 1) * d ≤ m :=
  Nat.le_div_iff_mul_le hd

theorem le_div_comm (hd : 0 < d) (ht : 0 < t) : t ≤ m / d ↔ d ≤ m / t := by
  rw [Nat.le_div_iff_mul_le hd, Nat.le_div_iff_mul_le ht, Nat.mul_comm]

theorem le_div_div (ht : 0 < t) (htm : t ≤ m) : t ≤ m / (m / t) := by
  have hpos : 0 < m / t := Nat.div_pos htm ht
  exact (le_div_comm hpos ht).mpr (Nat.le_refl _)

theorem div_div_div (hd : 0 < d) (hdm : d ≤ m) : m / (m / (m / d)) = m / d := by
  have hpos : 0 < m / d := Nat.div_pos hdm hd
  have hback : d ≤ m / (m / d) := le_div_div hd hdm
  apply Nat.le_antisymm
  · exact Nat.div_le_div_left hback hd
  · exact le_div_div hpos (Nat.div_le_self m d)

theorem div_div_eq_iff (ht : 0 < t) (htm : t ≤ m) :
    m / (m / t) = t ↔ ∃ d, 0 < d ∧ t = m / d := by
  constructor
  · intro h
    exact ⟨m / t, Nat.div_pos htm ht, h.symm⟩
  · intro h
    obtain ⟨d, hd, rfl⟩ := h
    have hdm : d ≤ m := by
      by_contra hlt
      rw [Nat.div_eq_of_lt (by omega)] at ht
      cases ht
    exact div_div_div hd hdm

theorem div_div_mul_lt (ht : 0 < t) : m / (m / t) * (m / t) < t * (m / t + 1) := by
  have hle : m / (m / t) * (m / t) ≤ m := Nat.div_mul_le_self m (m / t)
  have hlt : m < t * (m / t + 1) := Nat.lt_mul_div_succ m ht
  omega

/-- A number that is not above its reciprocal survives. -/
theorem div_div_eq_of_le_div (ht : 0 < t) (h : t ≤ m / t) : m / (m / t) = t := by
  have hpos : 0 < m / t := by omega
  apply Nat.le_antisymm
  · have hlt : m < t * (m / t + 1) := Nat.lt_mul_div_succ m ht
    refine Nat.le_of_lt_succ ((Nat.div_lt_iff_lt_mul hpos).mpr ?_)
    calc m < t * (m / t + 1) := hlt
      _ = t * (m / t) + t := Nat.mul_succ _ _
      _ ≤ t * (m / t) + m / t := Nat.add_le_add_left h _
      _ = (t + 1) * (m / t) := (Nat.succ_mul _ _).symm
  · exact le_div_div ht (Nat.le_trans h (Nat.div_le_self m t))

end LiteXmr.Reciprocal
