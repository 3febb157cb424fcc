/-
LiteXmr.Cpu.ThreadPlanTheorems — the workers are pinned to one PU per core.

The cores are cells of PUs. `foldl_splitRound` says that the loop over the cores
takes the head of every cell, apart for the cores with several PUs and the
others; `planned_buildThreadPlan` that the plan is a permutation of these heads,
with the cores of several PUs first. The rest of the way to the workers leaves
PUs out, but adds none (`onePerCell_workerPus`).

Where hwloc reports no cores, `SeenKeys` is what the loop of `one_pu_per_core`
keeps, and the workers get PUs of different keys (`workerPus_without_cores`).
-/
import LiteXmr.Cpu.ThreadPlan
import LiteXmr.Lib.Heads
import Mathlib.Data.List.Perm.Subperm

namespace LiteXmr

open Heads

/-! ## Sorting -/

theorem sortUnstable_perm (xs : List Nat) : (sortUnstable xs).Perm xs :=
  List.perm_insertionSort _ _

theorem sortUnstable_of_sorted {xs : List Nat} (h : xs.Pairwise (· < ·)) :
    sortUnstable xs = xs :=
  (h.imp Nat.le_of_lt).insertionSort_eq

theorem dedup_of_sorted {xs : List Nat} (h : xs.Pairwise (· < ·)) : dedup xs = xs :=
  List.destutter_of_isChain _ _ (h.imp Nat.ne_of_lt).isChain

/-! ## The cores -/

/-- The PUs of a core. -/
def Core.indices (core : Core) : List Nat := (core.cpuset.map CpuSet.indices).getD []

def Topology.cells (topo : Topology) : List (List Nat) := topo.cores.map Core.indices

theorem Core.pus_eq (core : Core) : core.pus = core.indices := by
  have hsorted : core.indices.Pairwise (· < ·) := by
    unfold Core.indices
    cases core.cpuset with
    | none => exact List.Pairwise.nil
    | some set => exact set.sorted
  have hpus : core.pus = dedup (sortUnstable core.indices) := rfl
  rw [hpus, sortUnstable_of_sorted hsorted, dedup_of_sorted hsorted]

theorem Core.indices_lt (core : Core) : ∀ pu ∈ core.indices, pu < 2 ^ 31 := by
  unfold Core.indices
  cases core.cpuset with
  | none => exact nofun
  | some set => exact set.bounded

/-- A core with several PUs. -/
def isSmt (cell : List Nat) : Bool := decide (2 ≤ cell.length)

theorem foldl_splitRound (cores : List Core) (acc : List Nat × List Nat) :
    cores.foldl splitRound acc
      = (acc.1 ++ heads ((cores.map Core.indices).filter isSmt),
          acc.2 ++ heads ((cores.map Core.indices).filter fun cell => !isSmt cell)) := by
  induction cores generalizing acc with
  | nil => simp [heads]
  | cons core cores ih =>
      rw [List.foldl_cons, ih, splitRound, core.pus_eq]
      cases hhead : core.indices.head? with
      | none =>
          have hnil : core.indices = [] := List.head?_eq_none_iff.mp hhead
          simp [heads, hnil, isSmt, List.filterMap_cons]
      | some firstPu =>
          by_cases hsmt : 2 ≤ core.indices.length
          · simp [heads, isSmt, hsmt, hhead]
          · simp [heads, isSmt, hsmt, hhead]

/-! ## The plan -/

/-- A plan takes the head of every core, and does the cores with several PUs first. -/
structure Planned (cells : List (List Nat)) (plan : ThreadPlan) : Prop where
  perm : (plan.pCorePus ++ plan.eCorePus).Perm (heads cells)
  nonempty : plan.pCorePus ≠ []
  smt : (∃ cell ∈ cells, isSmt cell = true) →
    ∀ pu ∈ plan.pCorePus, ∃ cell ∈ cells, pu ∈ cell ∧ isSmt cell = true

theorem heads_ne_nil {cells : List (List Nat)} (h : ∃ cell ∈ cells, cell ≠ []) :
    heads cells ≠ [] := by
  obtain ⟨cell, hcell, hne⟩ := h
  obtain ⟨pu, hpu, -⟩ := exists_head hcell hne
  exact List.ne_nil_of_mem hpu

theorem ne_nil_of_isSmt {cell : List Nat} (h : isSmt cell = true) : cell ≠ [] := by
  rintro rfl
  cases h

section

variable (numCpus : Nat) {topo : Topology}

theorem splitPEByCoreShape_eq (topo : Topology) :
    splitPEByCoreShape topo
      = if sortUnstable (heads (topo.cells.filter isSmt)) ≠ [] then
          (sortUnstable (heads (topo.cells.filter isSmt)),
            sortUnstable (heads (topo.cells.filter fun cell => !isSmt cell)))
        else (sortUnstable (heads (topo.cells.filter fun cell => !isSmt cell)), []) := by
  unfold splitPEByCoreShape
  rw [foldl_splitRound]
  rfl

theorem buildThreadPlan_of_split {p e : List Nat} (h : splitPEByCoreShape topo = (p, e))
    (hp : p ≠ []) : buildThreadPlan numCpus (some topo) = ⟨p, e⟩ := by
  simp only [buildThreadPlan, h]
  rw [if_neg fun hnone => hp hnone.1, if_neg hp]

theorem planned_of_smt (h : sortUnstable (heads (topo.cells.filter isSmt)) ≠ []) :
    Planned topo.cells (buildThreadPlan numCpus (some topo)) := by
  have hsplit := splitPEByCoreShape_eq topo
  rw [if_pos h] at hsplit
  rw [buildThreadPlan_of_split numCpus hsplit h]
  refine ⟨?_, h, fun _ pu hpu => ?_⟩
  · exact ((sortUnstable_perm _).append (sortUnstable_perm _)).trans
      (heads_filter_append_perm isSmt topo.cells)
  · obtain ⟨cell, hcell, hhead⟩ := mem_heads.mp ((sortUnstable_perm _).mem_iff.mp hpu)
    obtain ⟨hmem, hsmt⟩ := List.mem_filter.mp hcell
    exact ⟨cell, hmem, List.mem_of_head? hhead, hsmt⟩

/-- Without a core of several PUs the plan consists of the others. -/
theorem planned_of_single (h : ∃ cell ∈ topo.cells, cell ≠ [])
    (hsmt : sortUnstable (heads (topo.cells.filter isSmt)) = []) :
    Planned topo.cells (buildThreadPlan numCpus (some topo)) := by
  have hnone : heads (topo.cells.filter isSmt) = [] := by
    have hsorted := sortUnstable_perm (heads (topo.cells.filter isSmt))
    rw [hsmt] at hsorted
    exact hsorted.symm.eq_nil
  have hperm := heads_filter_append_perm isSmt topo.cells
  rw [hnone, List.nil_append] at hperm
  have hall := (sortUnstable_perm _).trans hperm
  have hne : sortUnstable (heads (topo.cells.filter fun cell => !isSmt cell)) ≠ [] := by
    intro hnil
    rw [hnil] at hall
    exact heads_ne_nil h hall.symm.eq_nil
  have hsplit := splitPEByCoreShape_eq topo
  rw [if_neg (not_not.mpr hsmt)] at hsplit
  rw [buildThreadPlan_of_split numCpus hsplit hne]
  refine ⟨?_, hne, ?_⟩
  · rw [List.append_nil]
    exact hall
  · rintro ⟨cell, hcell, hcellSmt⟩
    obtain ⟨pu, hpu, -⟩ :=
      exists_head (List.mem_filter.mpr ⟨hcell, hcellSmt⟩) (ne_nil_of_isSmt hcellSmt)
    rw [hnone] at hpu
    cases hpu

theorem planned_buildThreadPlan (h : ∃ cell ∈ topo.cells, cell ≠ []) :
    Planned topo.cells (buildThreadPlan numCpus (some topo)) := by
  by_cases hsmt : sortUnstable (heads (topo.cells.filter isSmt)) = []
  · exact planned_of_single numCpus h hsmt
  · exact planned_of_smt numCpus hsmt

end

/-! ## The preferred PUs -/

/-- No PU is left out when there are none twice. -/
theorem foldl_push_of_nodup (pus out : List Nat) (h : (out ++ pus).Nodup) :
    pus.foldl (fun out pu => if out.contains pu then out else out ++ [pu]) out = out ++ pus := by
  induction pus generalizing out with
  | nil => simp
  | cons pu pus ih =>
      have hnot : out.contains pu = false := by
        rw [Bool.eq_false_iff, Ne, List.contains_iff_mem]
        exact fun hmem => List.disjoint_of_nodup_append h hmem List.mem_cons_self
      have hnext : (out ++ [pu] ++ pus).Nodup := by
        rwa [List.append_assoc, List.singleton_append]
      rw [List.foldl_cons, hnot, if_neg Bool.false_ne_true, ih (out ++ [pu]) hnext,
        List.append_assoc, List.singleton_append]

section

variable {cells : List (List Nat)} {plan : ThreadPlan} (h : Planned cells plan)
  (hdisjoint : cells.Pairwise List.Disjoint)

include h

theorem Planned.preferredPOnly : plan.preferredPOnly = plan.pCorePus := if_neg h.nonempty

include hdisjoint

theorem Planned.onePerCell : OnePerCell cells (plan.pCorePus ++ plan.eCorePus) :=
  (onePerCell_heads hdisjoint).perm h.perm

theorem Planned.preferredWithE : plan.preferredWithE = plan.pCorePus ++ plan.eCorePus := by
  rw [ThreadPlan.preferredWithE, h.preferredPOnly]
  exact foldl_push_of_nodup _ _ (h.onePerCell hdisjoint).nodup

theorem Planned.plannedPus (useECores : Bool) :
    plannedPus useECores plan
      = if useECores then plan.pCorePus ++ plan.eCorePus else plan.pCorePus := by
  rw [LiteXmr.plannedPus, h.preferredWithE hdisjoint, h.preferredPOnly]

theorem Planned.onePerCell_plannedPus (useECores : Bool) :
    OnePerCell cells (LiteXmr.plannedPus useECores plan) := by
  rw [h.plannedPus hdisjoint]
  split
  · exact h.onePerCell hdisjoint
  · exact (h.onePerCell hdisjoint).sublist (List.sublist_append_left _ _)

theorem Planned.plannedPus_ne_nil (useECores : Bool) :
    LiteXmr.plannedPus useECores plan ≠ [] := by
  rw [h.plannedPus hdisjoint]
  split
  · exact List.append_ne_nil_of_left_ne_nil h.nonempty _
  · exact h.nonempty

end

/-! ## The workers -/

section

variable {topo : Topology} (hdisjoint : topo.cells.Pairwise List.Disjoint)
  (hsome : ∃ cell ∈ topo.cells, cell ≠ []) (numCpus physicalCores : Nat) (useECores : Bool)

theorem Topology.cell_lt (topo : Topology) :
    ∀ cell ∈ topo.cells, ∀ pu ∈ cell, pu < 2 ^ 31 := by
  intro cell hcell
  obtain ⟨core, -, rfl⟩ := List.mem_map.mp hcell
  exact core.indices_lt

include hdisjoint hsome

theorem onePerCell_workerPus (threads : UInt32) :
    OnePerCell topo.cells (workerPus numCpus physicalCores (some topo) useECores threads) :=
  ((planned_buildThreadPlan numCpus hsome).onePerCell_plannedPus hdisjoint useECores).sublist
    (List.take_sublist _ _)

/-- There are fewer PUs than a thread count can say. -/
theorem length_plannedPus_lt :
    (plannedPus useECores (buildThreadPlan numCpus (some topo))).length < 2 ^ 32 := by
  have hone :=
    (planned_buildThreadPlan numCpus hsome).onePerCell_plannedPus hdisjoint useECores
  have hsubset : plannedPus useECores (buildThreadPlan numCpus (some topo))
      ⊆ List.range (2 ^ 31) := by
    intro pu hpu
    obtain ⟨cell, hcell, hmem⟩ := hone.covered pu hpu
    exact List.mem_range.mpr (topo.cell_lt cell hcell pu hmem)
  have hle := (List.subperm_of_subset hone.nodup hsubset).length_le
  rw [List.length_range] at hle
  omega

/-- Without a configured number of threads all planned PUs are used. -/
theorem workerPus_auto :
    workerPus numCpus physicalCores (some topo) useECores 0
      = plannedPus useECores (buildThreadPlan numCpus (some topo)) := by
  have hne := (planned_buildThreadPlan numCpus hsome).plannedPus_ne_nil hdisjoint useECores
  have hlen := length_plannedPus_lt hdisjoint hsome numCpus useECores
  rw [workerPus, mineThreads, if_pos rfl, if_neg (by rwa [List.isEmpty_iff]),
    UInt32.toNat_ofNat', Nat.mod_eq_of_lt hlen, List.take_length]

end

/-- The workers get no PU twice and no two PUs of one core. With E-cores and automatic threads
they get one of every core; without, only those of cores with several PUs, if there are any. -/
theorem workers_pinned (topo : Topology) (hdisjoint : topo.cells.Pairwise List.Disjoint)
    (hsome : ∃ cell ∈ topo.cells, cell ≠ []) (numCpus physicalCores : Nat) (useECores : Bool)
    (threads : UInt32) :
    OnePerCell topo.cells (workerPus numCpus physicalCores (some topo) useECores threads) ∧
    (useECores = true → threads = 0 → ∀ cell ∈ topo.cells, cell ≠ [] →
      ∃! pu, pu ∈ workerPus numCpus physicalCores (some topo) useECores threads ∧ pu ∈ cell) ∧
    (useECores = false → (∃ cell ∈ topo.cells, 2 ≤ cell.length) →
      ∀ pu ∈ workerPus numCpus physicalCores (some topo) useECores threads,
        ∃ cell ∈ topo.cells, pu ∈ cell ∧ 2 ≤ cell.length) := by
  have hplan := planned_buildThreadPlan numCpus hsome
  have hone := onePerCell_workerPus hdisjoint hsome numCpus physicalCores useECores threads
  refine ⟨hone, ?_, ?_⟩
  · rintro rfl rfl cell hcell hne
    obtain ⟨pu, hpu, hmem⟩ := exists_head hcell hne
    have hworker : pu ∈ workerPus numCpus physicalCores (some topo) true 0 := by
      rw [workerPus_auto hdisjoint hsome, hplan.plannedPus hdisjoint, if_pos rfl]
      exact hplan.perm.mem_iff.mpr hpu
    exact ⟨pu, ⟨hworker, hmem⟩, fun other hother =>
      hone.eq_of_mem cell hcell other hother.1 pu hworker hother.2 hmem⟩
  · rintro rfl ⟨cell, hcell, hsmt⟩ pu hpu
    have hplanned := List.mem_of_mem_take hpu
    rw [hplan.plannedPus hdisjoint, if_neg Bool.false_ne_true] at hplanned
    obtain ⟨core, hcore, hmem, hcoreSmt⟩ :=
      hplan.smt ⟨cell, hcell, decide_eq_true hsmt⟩ pu hplanned
    exact ⟨core, hcore, hmem, of_decide_eq_true hcoreSmt⟩

/-- Two cores of two PUs, one of one PU, and one that is switched off. -/
def hybrid : Topology where
  cores := [⟨some ⟨[0, 1], by decide, by decide⟩⟩, ⟨some ⟨[2, 3], by decide, by decide⟩⟩,
    ⟨some ⟨[4], by decide, by decide⟩⟩, ⟨none⟩]
  cpuset := ⟨[0, 1, 2, 3, 4], by decide, by decide⟩
  puWithOsIndex _ := some []

theorem hybrid_disjoint : hybrid.cells.Pairwise List.Disjoint := by
  simp [hybrid, Topology.cells, Core.indices, List.Disjoint]

theorem workers_pinned_hybrid :
    (∃! pu, pu ∈ workerPus 5 3 (some hybrid) true 0 ∧ pu ∈ [4]) ∧
      ∀ pu ∈ workerPus 5 3 (some hybrid) false 8,
        ∃ cell ∈ hybrid.cells, pu ∈ cell ∧ 2 ≤ cell.length :=
  ⟨(workers_pinned hybrid hybrid_disjoint (by decide) 5 3 true 0).2.1 rfl rfl [4] (by decide)
      (by decide),
    (workers_pinned hybrid hybrid_disjoint (by decide) 5 3 false 8).2.2 rfl
      ⟨[0, 1], by decide, by decide⟩⟩

example : workerPus 5 3 (some hybrid) true 0 = [0, 2, 4] := by decide +kernel

/-- Two workers are never pinned to PUs of one core. -/
theorem pins_apart {topo : Topology} {puPlan : List Nat} (h : OnePerCell topo.cells puPlan)
    {v w : UInt32} (hne : v ≠ w) {x y : Nat} (hx : workerPin puPlan v = some x)
    (hy : workerPin puPlan w = some y) {cell : List Nat} (hcell : cell ∈ topo.cells)
    (hmem : x ∈ cell) : y ∉ cell := by
  intro hymem
  have hsame := h.eq_of_mem cell hcell x (List.mem_of_getElem? hx) y (List.mem_of_getElem? hy)
    hmem hymem
  have hpins : puPlan[v.toNat]? = puPlan[w.toNat]? := by
    rw [← workerPin, ← workerPin, hx, hy, hsame]
  obtain ⟨hlt, -⟩ := List.getElem?_eq_some_iff.mp hx
  exact hne (UInt32.toNat_inj.mp ((List.getElem?_inj hlt h.nodup).mp hpins))

/-! ## Without cores -/

/-- The key that a PU is counted under. -/
def Topology.keyOf (topo : Topology) (puOs : Nat) : Option Nat :=
  (topo.puWithOsIndex puOs).map (coreKey puOs)

/-- After the PUs of `done` there is one PU for each of the keys that have been seen. -/
structure SeenKeys (topo : Topology) (done : List Nat) (acc : List Nat × List Nat) : Prop where
  apart : acc.2.Pairwise fun x y => topo.keyOf x ≠ topo.keyOf y
  seen : ∀ pu ∈ acc.2, ∃ key ∈ acc.1, topo.keyOf pu = some key
  chosen : ∀ key ∈ acc.1, ∃ pu ∈ acc.2, topo.keyOf pu = some key
  known : ∀ pu ∈ done, ∀ key, topo.keyOf pu = some key → key ∈ acc.1

section

variable {topo : Topology} {done : List Nat} {acc : List Nat × List Nat}

/-- A PU whose key has been seen, or that has none, changes nothing. -/
theorem SeenKeys.skip (h : SeenKeys topo done acc) {puOs : Nat}
    (hknown : ∀ key, topo.keyOf puOs = some key → key ∈ acc.1) :
    SeenKeys topo (done ++ [puOs]) acc where
  apart := h.apart
  seen := h.seen
  chosen := h.chosen
  known pu hpu := by
    rcases List.mem_append.mp hpu with hdone | hlast
    · exact h.known pu hdone
    · rw [List.mem_singleton.mp hlast]
      exact hknown

theorem SeenKeys.push (h : SeenKeys topo done acc) {puOs key : Nat}
    (hkey : topo.keyOf puOs = some key) (hnew : key ∉ acc.1) :
    SeenKeys topo (done ++ [puOs]) (key :: acc.1, acc.2 ++ [puOs]) where
  apart := by
    refine List.pairwise_append.mpr ⟨h.apart, List.pairwise_singleton _ _, ?_⟩
    intro x hx y hy hsame
    obtain ⟨seen, hseen, hxKey⟩ := h.seen x hx
    rw [List.mem_singleton.mp hy, hkey, hxKey] at hsame
    rw [Option.some.inj hsame] at hseen
    exact hnew hseen
  seen pu hpu := by
    rcases List.mem_append.mp hpu with hout | hlast
    · obtain ⟨seen, hseen, hpuKey⟩ := h.seen pu hout
      exact ⟨seen, List.mem_cons_of_mem _ hseen, hpuKey⟩
    · rw [List.mem_singleton.mp hlast]
      exact ⟨key, List.mem_cons_self, hkey⟩
  chosen seen hseen := by
    rcases List.mem_cons.mp hseen with rfl | hold
    · exact ⟨puOs, List.mem_append_right _ (List.mem_singleton_self _), hkey⟩
    · obtain ⟨pu, hpu, hpuKey⟩ := h.chosen seen hold
      exact ⟨pu, List.mem_append_left _ hpu, hpuKey⟩
  known pu hpu other hother := by
    rcases List.mem_append.mp hpu with hdone | hlast
    · exact List.mem_cons_of_mem _ (h.known pu hdone other hother)
    · rw [List.mem_singleton.mp hlast, hkey] at hother
      exact List.mem_cons.mpr (.inl (Option.some.inj hother).symm)

theorem seenKeys_onePuRound (h : SeenKeys topo done acc) (puOs : Nat) :
    SeenKeys topo (done ++ [puOs]) (onePuRound topo acc puOs) := by
  unfold onePuRound
  cases hpu : topo.puWithOsIndex puOs with
  | none => exact h.skip fun key hkey => by simp [Topology.keyOf, hpu] at hkey
  | some ancestors =>
      have hkeyOf : topo.keyOf puOs = some (coreKey puOs ancestors) := by
        rw [Topology.keyOf, hpu, Option.map_some]
      by_cases hseen : coreKey puOs ancestors ∈ acc.1
      · simp only [List.contains_iff_mem.mpr hseen, if_pos]
        refine h.skip fun key hkey => ?_
        rw [hkeyOf] at hkey
        rwa [← Option.some.inj hkey]
      · simp only [Bool.eq_false_iff.mpr (mt List.contains_iff_mem.mp hseen),
          if_neg Bool.false_ne_true]
        exact h.push hkeyOf hseen

theorem seenKeys_foldl (h : SeenKeys topo done acc) (pus : List Nat) :
    SeenKeys topo (done ++ pus) (pus.foldl (onePuRound topo) acc) := by
  induction pus generalizing done acc with
  | nil =>
      rw [List.append_nil]
      exact h
  | cons pu pus ih =>
      rw [List.foldl_cons, ← List.singleton_append, ← List.append_assoc]
      exact ih (seenKeys_onePuRound h pu)

theorem seenKeys_nil (topo : Topology) : SeenKeys topo [] ([], []) :=
  ⟨List.Pairwise.nil, nofun, nofun, nofun⟩

end

/-- There is one PU for every key that PUs are counted under. -/
theorem onePuPerCore_spec (topo : Topology) (cpuset : CpuSet) :
    (onePuPerCore topo cpuset).Pairwise (fun x y => topo.keyOf x ≠ topo.keyOf y) ∧
    ∀ pu ∈ cpuset.indices, ∀ key, topo.keyOf pu = some key →
      ∃ x ∈ onePuPerCore topo cpuset, topo.keyOf x = some key := by
  have hseen := seenKeys_foldl (seenKeys_nil topo) cpuset.indices
  rw [List.nil_append] at hseen
  have hperm := sortUnstable_perm (cpuset.indices.foldl (onePuRound topo) ([], [])).2
  refine ⟨(hperm.pairwise_iff fun hne => hne.symm).mpr hseen.apart, fun pu hpu key hkey => ?_⟩
  obtain ⟨x, hx, hxKey⟩ := hseen.chosen key (hseen.known pu hpu key hkey)
  exact ⟨x, hperm.mem_iff.mpr hx, hxKey⟩

section

variable {topo : Topology} (hnone : ∀ cell ∈ topo.cells, cell = []) (numCpus : Nat)

include hnone

theorem heads_filter_eq_nil (p : List Nat → Bool) : heads (topo.cells.filter p) = [] := by
  refine List.filterMap_eq_nil_iff.mpr fun cell hcell => ?_
  rw [hnone cell (List.mem_filter.mp hcell).1, List.head?_nil]

theorem buildThreadPlan_without_cores :
    buildThreadPlan numCpus (some topo) = ⟨onePuPerCore topo topo.cpuset, []⟩ := by
  have hsplit := splitPEByCoreShape_eq topo
  rw [heads_filter_eq_nil hnone, heads_filter_eq_nil hnone] at hsplit
  have hempty : splitPEByCoreShape topo = ([], []) := hsplit
  simp [buildThreadPlan, hempty]

theorem plannedPus_without_cores (useECores : Bool) :
    plannedPus useECores (buildThreadPlan numCpus (some topo))
      = onePuPerCore topo topo.cpuset := by
  rw [buildThreadPlan_without_cores hnone]
  have hpreferred : ThreadPlan.preferredPOnly ⟨onePuPerCore topo topo.cpuset, []⟩
      = onePuPerCore topo topo.cpuset := by
    by_cases hnil : onePuPerCore topo topo.cpuset = []
    · rw [hnil]
      rfl
    · exact if_neg hnil
  cases useECores with
  | false => exact hpreferred
  | true => exact hpreferred

theorem workerPus_without_cores (physicalCores : Nat) (useECores : Bool) (threads : UInt32) :
    (workerPus numCpus physicalCores (some topo) useECores threads).Pairwise
      fun x y => topo.keyOf x ≠ topo.keyOf y := by
  rw [workerPus, plannedPus_without_cores hnone]
  exact (onePuPerCore_spec topo topo.cpuset).1.sublist (List.take_sublist _ _)

end

end LiteXmr
