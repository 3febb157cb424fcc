/-
LiteXmr.Lib.Overwrite — ordered maps that are filled from another one, in the
order of its keys.

A later entry overwrites an earlier one of its key, so what is found afterwards is
the last entry that was made for the key. `findSomeRev?_toList` says which one
this is when the entries come from a map, and `getElem?_insertMany_toList` is the
case in which every entry keeps its key.
-/
import Mathlib.Tactic.Common

namespace LiteXmr.Overwrite

universe u v w

variable {α : Type u} {β : Type v} {γ : Type w}

theorem findSomeRev?_eq_some_iff {f : α → Option γ} {l : List α} {c : γ} :
    l.findSomeRev? f = some c ↔
      ∃ before x after, l = before ++ x :: after ∧ f x = some c ∧ ∀ y ∈ after, f y = none := by
  rw [List.findSomeRev?_eq_findSome?_reverse, List.findSome?_eq_some_iff]
  constructor
  · rintro ⟨after, x, before, hl, hx, hafter⟩
    refine ⟨before.reverse, x, after.reverse, ?_, hx, fun y hy => hafter y (List.mem_reverse.mp hy)⟩
    rw [List.reverse_eq_iff] at hl
    rw [hl, List.reverse_append, List.reverse_cons, List.append_assoc, List.singleton_append]
  · rintro ⟨before, x, after, rfl, hx, hafter⟩
    refine ⟨after.reverse, x, before.reverse, ?_, hx, fun y hy => hafter y (List.mem_reverse.mp hy)⟩
    rw [List.reverse_append, List.reverse_cons, List.append_assoc, List.singleton_append]

theorem findSomeRev?_filterMap (f : α → Option β) (g : β → Option γ) (l : List α) :
    (l.filterMap f).findSomeRev? g = l.findSomeRev? fun x => (f x).bind g := by
  induction l with
  | nil => rfl
  | cons x l ih =>
      cases hx : f x with
      | none =>
          rw [List.filterMap_cons_none hx, ih, List.findSomeRev?, hx, Option.bind_none]
          cases l.findSomeRev? fun x => (f x).bind g with
          | none => rfl
          | some _ => rfl
      | some y =>
          rw [List.filterMap_cons_some hx, List.findSomeRev?, List.findSomeRev?, ih, hx]
          rfl

section

variable [Ord α] [Std.TransOrd α] [Std.LawfulEqOrd α]

/-- The entries of a map in order: the last one that `f` takes is the one behind which it
takes none. -/
theorem findSomeRev?_toList {m : Std.TreeMap α β} {f : α × β → Option γ} {c : γ} :
    m.toList.findSomeRev? f = some c ↔
      ∃ k v, m[k]? = some v ∧ f (k, v) = some c ∧
        ∀ k' v', m[k']? = some v' → compare k k' = .lt → f (k', v') = none := by
  have hsorted : m.toList.Pairwise fun a b => compare a.1 b.1 = .lt :=
    Std.TreeMap.ordered_keys_toList
  rw [findSomeRev?_eq_some_iff]
  constructor
  · rintro ⟨before, ⟨k, v⟩, after, hl, hx, hafter⟩
    have hmem : (k, v) ∈ m.toList := by
      rw [hl]
      exact List.mem_append_right _ List.mem_cons_self
    refine ⟨k, v, Std.TreeMap.mem_toList_iff_getElem?_eq_some.mp hmem, hx, fun k' v' hk' hlt => ?_⟩
    have hmem' := Std.TreeMap.mem_toList_iff_getElem?_eq_some.mpr hk'
    rw [hl] at hmem' hsorted
    obtain ⟨-, -, hbefore⟩ := List.pairwise_append.mp hsorted
    obtain hin | hin := List.mem_append.mp hmem'
    · have hgt := hbefore (k', v') hin (k, v) List.mem_cons_self
      rw [Std.OrientedCmp.gt_of_lt hlt] at hgt
      cases hgt
    · obtain heq | hin := List.mem_cons.mp hin
      · cases heq
        have hself : compare k k = .eq := Std.ReflCmp.compare_self
        rw [hself] at hlt
        cases hlt
      · exact hafter (k', v') hin
  · rintro ⟨k, v, hk, hx, hlater⟩
    obtain ⟨before, after, hl⟩ :=
      List.append_of_mem (Std.TreeMap.mem_toList_iff_getElem?_eq_some.mpr hk)
    refine ⟨before, (k, v), after, hl, hx, fun ⟨k', v'⟩ hin => ?_⟩
    rw [hl] at hsorted
    have hlt := List.rel_of_pairwise_cons (List.pairwise_append.mp hsorted).2.1 hin
    refine hlater k' v' (Std.TreeMap.mem_toList_iff_getElem?_eq_some.mp ?_) hlt
    rw [hl]
    exact List.mem_append_right _ (List.mem_cons_of_mem _ hin)

variable [BEq α] [LawfulBEq α]

/-- Every entry that was made overwrites, the others stay. -/
theorem getElem?_insertMany_toList (m m' : Std.TreeMap α β) (k : α) :
    (m.insertMany m'.toList)[k]? = m'[k]?.or m[k]? := by
  rw [Std.TreeMap.getElem?_insertMany_list]
  congr 1
  refine Option.ext fun v => ?_
  rw [findSomeRev?_toList]
  constructor
  · rintro ⟨key, value, hkey, hvalue, -⟩
    change (if compare key k = .eq then some value else none) = some v at hvalue
    split at hvalue
    · next heq =>
        cases hvalue
        rwa [← Std.LawfulEqCmp.eq_of_compare heq]
    · cases hvalue
  · intro hk
    refine ⟨k, v, hk, if_pos Std.ReflCmp.compare_self, fun k' v' _ hlt => ?_⟩
    change (if compare k' k = .eq then some v' else none) = none
    rw [Std.OrientedCmp.gt_of_lt hlt]
    rfl

theorem getElem?_ofList (l : List (α × β)) (k : α) :
    (Std.TreeMap.ofList l)[k]?
      = l.findSomeRev? fun entry => if compare entry.1 k = .eq then some entry.2 else none := by
  rw [Std.TreeMap.ofList_eq_insertMany_empty, Std.TreeMap.getElem?_insertMany_list,
    Std.TreeMap.getElem?_emptyc, Option.or_none]

end

end LiteXmr.Overwrite
