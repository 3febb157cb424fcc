/-
LiteXmr.Lib.Heads — one element out of each of a list of disjoint cells.

`heads` takes the first element of every cell that has one. `OnePerCell` says
of a list of elements that it has none twice, none outside of the cells, and no
two of one cell; it holds of the heads (`onePerCell_heads`), and goes on to
permutations and sublists of a list.
-/
import Mathlib.Data.List.Nodup
import Mathlib.Data.List.Pairwise

namespace LiteXmr.Heads

variable {α : Type} {cells : List (List α)} {xs ys : List α}

def heads (cells : List (List α)) : List α := cells.filterMap List.head?

structure OnePerCell (cells : List (List α)) (xs : List α) : Prop where
  nodup : xs.Nodup
  covered : ∀ x ∈ xs, ∃ cell ∈ cells, x ∈ cell
  eq_of_mem : ∀ cell ∈ cells, ∀ x ∈ xs, ∀ y ∈ xs, x ∈ cell → y ∈ cell → x = y

theorem OnePerCell.perm (h : OnePerCell cells xs) (hp : ys.Perm xs) : OnePerCell cells ys where
  nodup := hp.nodup_iff.mpr h.nodup
  covered x hx := h.covered x (hp.mem_iff.mp hx)
  eq_of_mem cell hcell x hx y hy :=
    h.eq_of_mem cell hcell x (hp.mem_iff.mp hx) y (hp.mem_iff.mp hy)

theorem OnePerCell.sublist (h : OnePerCell cells xs) (hs : ys.Sublist xs) :
    OnePerCell cells ys where
  nodup := h.nodup.sublist hs
  covered x hx := h.covered x (hs.subset hx)
  eq_of_mem cell hcell x hx y hy := h.eq_of_mem cell hcell x (hs.subset hx) y (hs.subset hy)

theorem mem_heads {x : α} : x ∈ heads cells ↔ ∃ cell ∈ cells, cell.head? = some x :=
  List.mem_filterMap

/-- The only head that is in a cell is its own. -/
theorem head_of_mem (h : cells.Pairwise List.Disjoint) {cell : List α} (hcell : cell ∈ cells)
    {x : α} (hx : x ∈ heads cells) (hmem : x ∈ cell) : cell.head? = some x := by
  obtain ⟨own, hown, hhead⟩ := mem_heads.mp hx
  have hsymm : Std.Symm (List.Disjoint (α := α)) := ⟨fun _ _ => List.disjoint_symm⟩
  by_cases hsame : cell = own
  · rw [hsame, hhead]
  · exact absurd (List.mem_of_head? hhead) (h.forall hcell hown hsame hmem)

theorem nodup_heads (h : cells.Pairwise List.Disjoint) : (heads cells).Nodup := by
  rw [heads, List.nodup_iff_pairwise_ne, List.pairwise_filterMap]
  refine h.imp fun hdisjoint x hx y hy => ?_
  rintro rfl
  exact hdisjoint (List.mem_of_head? hx) (List.mem_of_head? hy)

theorem onePerCell_heads (h : cells.Pairwise List.Disjoint) :
    OnePerCell cells (heads cells) where
  nodup := nodup_heads h
  covered x hx := by
    obtain ⟨cell, hcell, hhead⟩ := mem_heads.mp hx
    exact ⟨cell, hcell, List.mem_of_head? hhead⟩
  eq_of_mem cell hcell x hx y hy hxc hyc := by
    have hhead := head_of_mem h hcell hx hxc
    rw [head_of_mem h hcell hy hyc] at hhead
    exact (Option.some.inj hhead).symm

theorem exists_head {cell : List α} (hcell : cell ∈ cells) (hne : cell ≠ []) :
    ∃ x ∈ heads cells, x ∈ cell := by
  obtain ⟨x, rest, rfl⟩ := List.exists_cons_of_ne_nil hne
  exact ⟨x, mem_heads.mpr ⟨_, hcell, rfl⟩, List.mem_cons_self⟩

/-- The heads of the cells of one kind and those of the others are all of them. -/
theorem heads_filter_append_perm (p : List α → Bool) (cells : List (List α)) :
    (heads (cells.filter p) ++ heads (cells.filter fun cell => !p cell)).Perm (heads cells) := by
  rw [heads, heads, ← List.filterMap_append]
  exact (List.filter_append_perm p cells).filterMap _

end LiteXmr.Heads
