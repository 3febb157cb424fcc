/-
LiteXmr.Cpu.ThreadPlan — which processing units (PUs) the workers are pinned to
(`cpu.rs`, the beginning of `run` in `controller.rs`, and `Miner::start`).

What hwloc reports comes in as a `Topology`: the cores with their sets of PUs,
the set of all PUs, and the objects above each PU. hwloc numbers PUs with the
values of a C `int` that are not negative, and a set of them is gone through in
increasing order; a `CpuSet` is that sequence.

`std::collections::BTreeSet` is the list of its elements in increasing order.
-/
import Mathlib.Algebra.Ring.Nat
import Mathlib.Data.List.Destutter
import Mathlib.Data.List.Sort

namespace LiteXmr

/-! ## What hwloc reports -/

structure CpuSet where
  indices : List Nat
  sorted : indices.Pairwise (· < ·)
  bounded : ∀ i ∈ indices, i < 2 ^ 31

def CpuSet.iterSet (set : CpuSet) : List Nat := set.indices

/-- The types of objects that the program tells apart. -/
inductive ObjectType where
  | core
  | other
  deriving DecidableEq, Repr

structure TopologyObject where
  objectType : ObjectType
  osIndex : Option Nat
  globalPersistentIndex : Nat

structure Core where
  cpuset : Option CpuSet

structure Topology where
  /-- `objects_with_type(ObjectType::Core)`. -/
  cores : List Core
  cpuset : CpuSet
  /-- `pu_with_os_index`: the ancestors of the PU, if there is one. -/
  puWithOsIndex : Nat → Option (List TopologyObject)

/-! ## `cpu.rs` -/

def sortUnstable (xs : List Nat) : List Nat := xs.insertionSort (· ≤ ·)

/-- `Vec::dedup`: an element goes when the one before it is the same. -/
def dedup (xs : List Nat) : List Nat := xs.destutter (· ≠ ·)

/-- Inserting into a `BTreeSet` and reading it out. -/
def treeSet (xs : List Nat) : List Nat := dedup (sortUnstable xs)

structure ThreadPlan where
  pCorePus : List Nat
  eCorePus : List Nat
  deriving DecidableEq, Repr

namespace ThreadPlan

def allPus (plan : ThreadPlan) : List Nat := treeSet (plan.pCorePus ++ plan.eCorePus)

def preferredPOnly (plan : ThreadPlan) : List Nat :=
  if plan.pCorePus = [] then plan.allPus else plan.pCorePus

def preferredWithE (plan : ThreadPlan) : List Nat :=
  plan.eCorePus.foldl (fun out pu => if out.contains pu then out else out ++ [pu])
    plan.preferredPOnly

end ThreadPlan

/-- The PUs of a core, as `split_p_e_by_core_shape` collects them. -/
def Core.pus (core : Core) : List Nat :=
  dedup (sortUnstable ((core.cpuset.map CpuSet.iterSet).getD []))

/-- One round of the loop of `split_p_e_by_core_shape`, on `(smt2, smt1)`. -/
def splitRound (acc : List Nat × List Nat) (core : Core) : List Nat × List Nat :=
  match core.pus.head? with
  | some firstPu =>
      if 2 ≤ core.pus.length then (acc.1 ++ [firstPu], acc.2) else (acc.1, acc.2 ++ [firstPu])
  | none => acc

def splitPEByCoreShape (topo : Topology) : List Nat × List Nat :=
  let (smt2, smt1) := topo.cores.foldl splitRound ([], [])
  let smt2 := sortUnstable smt2
  let smt1 := sortUnstable smt1
  if smt2 ≠ [] then (smt2, smt1) else (smt1, [])

/-- The number that stands for the core of a PU, or for the PU when it has none. -/
def coreKey (puOs : Nat) (ancestors : List TopologyObject) : Nat :=
  ((ancestors.find? fun a => a.objectType == .core).bind fun a =>
    a.osIndex.or (some a.globalPersistentIndex)).getD puOs

/-- One round of the loop of `one_pu_per_core`, on `(seen_cores, out)`. -/
def onePuRound (topo : Topology) (acc : List Nat × List Nat) (puOs : Nat) :
    List Nat × List Nat :=
  match topo.puWithOsIndex puOs with
  | none => acc
  | some ancestors =>
      let key := coreKey puOs ancestors
      if acc.1.contains key then acc else (key :: acc.1, acc.2 ++ [puOs])

def onePuPerCore (topo : Topology) (cpuset : CpuSet) : List Nat :=
  sortUnstable (cpuset.iterSet.foldl (onePuRound topo) ([], [])).2

/-- `numCpus` is what `num_cpus::get()` returns, for when hwloc fails. -/
def buildThreadPlan (numCpus : Nat) : Option Topology → ThreadPlan
  | none => { pCorePus := List.range numCpus, eCorePus := [] }
  | some topo =>
      let (p, e) := splitPEByCoreShape topo
      if p = [] ∧ e = [] then
        { pCorePus := onePuPerCore topo topo.cpuset, eCorePus := [] }
      else if p = [] then { pCorePus := e, eCorePus := [] }
      else { pCorePus := p, eCorePus := e }

/-- `CpuInfo::recommended_threads`. -/
def recommendedThreads (physicalCores : Nat) : UInt32 := UInt32.ofNat (max physicalCores 1)

/-! ## `controller.rs` -/

def plannedPus (useECores : Bool) (plan : ThreadPlan) : List Nat :=
  if useECores then plan.preferredWithE else plan.preferredPOnly

def mineThreads (threads : UInt32) (plannedPus : List Nat) (physicalCores : Nat) : UInt32 :=
  if threads = 0 then
    if plannedPus.isEmpty then recommendedThreads physicalCores
    else UInt32.ofNat plannedPus.length
  else threads

/-- The PUs that `run` and `run_daemon_rpc` give to the miner. -/
def workerPus (numCpus physicalCores : Nat) (topo : Option Topology) (useECores : Bool)
    (threads : UInt32) : List Nat :=
  let plannedPus := plannedPus useECores (buildThreadPlan numCpus topo)
  plannedPus.take (mineThreads threads plannedPus physicalCores).toNat

/-! ## `miner.rs` -/

/-- The PU that a worker is pinned to, if there is one for it. -/
def workerPin (puPlan : List Nat) (workerId : UInt32) : Option Nat := puPlan[workerId.toNat]?

end LiteXmr
