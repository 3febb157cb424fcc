/-
LiteXmr.Randomx.Objects — the objects of the RandomX library and who owns
them (`randomx/mod.rs`).

A cache, a dataset and a VM are made and released by calls of the library.
Rust's part is to make these calls at the right time: a `Dataset` is shared
by counting and is released by its last owner, a `Vm` has one owner, is
destroyed with it and owns its dataset while it lives. `Objects κ` has the
owners `κ`; an operation changes it and makes calls.

Objects are known by the order in which they were made, so no two have the
same number; beside a dataset stands what it was made of. An allocation is
tried with large pages and then without, and only one that succeeded is among
the calls. The parallel loop that fills a dataset is one call here; which
worker fills which items is the matter of `Randomx.DatasetInit`.
-/
import LiteXmr.Lib.Counted
import LiteXmr.Miner.DatasetCache

namespace LiteXmr.Randomx

universe u

/-! ## Calls -/

inductive NativeCall where
  | allocCache (c : Nat)
  | initCache (c : Nat) (key : Bytes)
  | releaseCache (c : Nat)
  | allocDataset (d : Nat)
  | initDataset (d c : Nat)
  | releaseDataset (d : Nat)
  | createVm (v d : Nat)
  | calculateHash (v : Nat) (input : Bytes)
  | destroyVm (v : Nat)
  deriving DecidableEq

/-- What `ensure_header_compat` and the allocations in `new_for_algo` come to. -/
structure DatasetAllocs where
  headerCompat : Bool
  cacheLargePages : Bool
  cache : Bool
  datasetLargePages : Bool
  dataset : Bool

def DatasetAllocs.hasCache (allocs : DatasetAllocs) : Bool :=
  allocs.cacheLargePages || allocs.cache

def DatasetAllocs.hasDataset (allocs : DatasetAllocs) : Bool :=
  allocs.datasetLargePages || allocs.dataset

def DatasetAllocs.available (allocs : DatasetAllocs) : Bool :=
  allocs.headerCompat && allocs.hasCache && allocs.hasDataset

/-- What the two calls of `randomx_create_vm` come to. -/
structure VmAllocs where
  largePages : Bool
  plain : Bool

def VmAllocs.available (allocs : VmAllocs) : Bool := allocs.largePages || allocs.plain

/-! ## Objects -/

structure Objects (κ : Type u) where
  caches : Nat
  /-- What each dataset was made of. -/
  datasets : List Dataset
  /-- The dataset of each VM. -/
  vms : List Nat
  /-- The owners of the datasets. -/
  arcs : Counted κ Nat
  /-- The VM that an owner of a dataset has made of it. -/
  vmAt : κ → Option Nat

/-- An operation and the calls it makes. -/
abbrev Action (κ : Type u) := Objects κ → Objects κ × List NativeCall

section

variable {κ : Type u}

def Objects.empty : Objects κ :=
  { caches := 0, datasets := [], vms := [], arcs := .empty, vmAt := fun _ => none }

def Action.skip : Action κ := fun n => (n, [])

def Action.andThen (f g : Action κ) : Action κ := fun n =>
  let first := f n
  let second := g first.1
  (second.1, first.2 ++ second.2)

/-- The blobs of a batch are hashed one after the other. -/
def hashBatch (o : κ) (inputs : List Bytes) : Action κ := fun n =>
  match n.vmAt o with
  | some v => (n, inputs.map (.calculateHash v))
  | none => (n, [])

variable [DecidableEq κ]

/-- `Dataset::new_for_algo`. When the dataset cannot be allocated the function
returns without releasing the cache. -/
def newForAlgo (o : κ) (algo : String) (seed : Bytes) (allocs : DatasetAllocs) : Action κ :=
  fun n =>
    let c := n.caches
    let d := n.datasets.length
    if allocs.headerCompat = false then (n, [])
    else if randomxApplyConfig algo = false then (n, [])
    else if seed.isEmpty then (n, [])
    else if allocs.hasCache = false then (n, [])
    else if allocs.hasDataset = false then
      ({ n with caches := c + 1 }, [.allocCache c, .initCache c seed])
    else
      ({ n with
          caches := c + 1
          datasets := n.datasets ++ [{ algo, seed }]
          arcs := n.arcs.make o d },
        [.allocCache c, .initCache c seed, .allocDataset d, .initDataset d c, .releaseCache c])

/-- `Arc::clone`. -/
def cloneArc (o o' : κ) : Action κ := fun n => ({ n with arcs := n.arcs.clone o o' }, [])

/-- An `Arc<Dataset>` goes out of scope; `Drop for Dataset` with the last one. -/
def dropArc (o : κ) : Action κ := fun n =>
  let dropped := n.arcs.drop o
  ({ n with arcs := dropped.1 }, (dropped.2.map NativeCall.releaseDataset).toList)

/-- `Vm::new` of the dataset the owner holds. It has taken the dataset, so it
lets go of it when there is no VM. -/
def newVm (o : κ) (allocs : VmAllocs) : Action κ := fun n =>
  match n.arcs.holds o with
  | none => (n, [])
  | some d =>
      match (n.datasets[d]?).bind fun dataset => Vm.new dataset allocs.available with
      | some _ =>
          ({ n with
              vms := n.vms ++ [d]
              vmAt := Function.update n.vmAt o (some n.vms.length) },
            [.createVm n.vms.length d])
      | none => dropArc o n

/-- `Drop for Vm`. -/
def destroyVm (o : κ) : Action κ := fun n =>
  match n.vmAt o with
  | some v => ({ n with vmAt := Function.update n.vmAt o none }, [.destroyVm v])
  | none => (n, [])

/-- A `Vm` goes out of scope: after `Drop for Vm` its dataset is let go. -/
def dropVm (o : κ) : Action κ := (destroyVm o).andThen (dropArc o)

/-- A `Vm` is moved. -/
def moveVm (o o' : κ) : Action κ := fun n =>
  ({ n with
      arcs := n.arcs.move o o'
      vmAt := Function.update (Function.update n.vmAt o none) o' (n.vmAt o) }, [])

/-- `*o' = new_vm`: the VM that was there is dropped. -/
def replaceVm (o o' : κ) : Action κ := (dropVm o').andThen (moveVm o o')

end

end LiteXmr.Randomx
