/-
LiteXmr.Lib.SortByKey — taking the smallest elements of a list.

* `sortByKey key xs` — the stable sort by a key; the elements with one key
  stay in their order.
* `le_of_mem_take_of_mem_drop` — what is kept of a sorted list has a key no
  larger than what is cut off.
* `mem_take_or_drop` — nothing else is lost.
* `head?_sortByKey_eq_none`, `le_of_head?` — the first element, if there is
  one, has the smallest key.
-/
import Mathlib.Data.List.Sort
import Mathlib.Order.Defs.LinearOrder

namespace LiteXmr

universe u v

variable {α : Type u} {κ : Type v} [LinearOrder κ] (key : α → κ)

/-- `slice::sort_by_key`. -/
def sortByKey (xs : List α) : List α := xs.insertionSort fun a b => key a ≤ key b

variable {key} {xs : List α} {a b : α} {n : Nat}

theorem perm_sortByKey (key : α → κ) (xs : List α) : (sortByKey key xs).Perm xs :=
  List.perm_insertionSort _ xs

theorem mem_sortByKey : a ∈ sortByKey key xs ↔ a ∈ xs := (perm_sortByKey key xs).mem_iff

theorem pairwise_sortByKey (key : α → κ) (xs : List α) :
    (sortByKey key xs).Pairwise fun a b => key a ≤ key b := by
  have htotal : Std.Total fun a b : α => key a ≤ key b := ⟨fun a b => le_total (key a) (key b)⟩
  have htrans : IsTrans α fun a b => key a ≤ key b := ⟨fun _ _ _ => le_trans⟩
  exact List.pairwise_insertionSort _ xs

theorem le_of_mem_take_of_mem_drop (ha : a ∈ (sortByKey key xs).take n)
    (hb : b ∈ (sortByKey key xs).drop n) : key a ≤ key b := by
  have hsorted := pairwise_sortByKey key xs
  rw [← List.take_append_drop n (sortByKey key xs)] at hsorted
  exact (List.pairwise_append.mp hsorted).2.2 a ha b hb

theorem mem_take_or_drop (key : α → κ) (n : Nat) (h : a ∈ xs) :
    a ∈ (sortByKey key xs).take n ∨ a ∈ (sortByKey key xs).drop n := by
  rw [← List.mem_append, List.take_append_drop]
  exact mem_sortByKey.mpr h

theorem head?_sortByKey_eq_none : (sortByKey key xs).head? = none ↔ xs = [] := by
  rw [List.head?_eq_none_iff, ← List.length_eq_zero_iff, (perm_sortByKey key xs).length_eq,
    List.length_eq_zero_iff]

/-- The first element of the sorted list. -/
theorem le_of_head? (h : (sortByKey key xs).head? = some a) :
    a ∈ xs ∧ ∀ b ∈ xs, key a ≤ key b := by
  have hsorted := pairwise_sortByKey key xs
  have hperm := perm_sortByKey key xs
  cases hlist : sortByKey key xs with
  | nil => simp [hlist] at h
  | cons c rest =>
      rw [hlist] at h hsorted hperm
      cases h
      refine ⟨hperm.mem_iff.mp List.mem_cons_self, fun b hb => ?_⟩
      rcases List.mem_cons.mp (hperm.mem_iff.mpr hb) with rfl | hb
      · exact le_refl _
      · exact (List.pairwise_cons.mp hsorted).1 b hb

end LiteXmr
