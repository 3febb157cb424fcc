/-
LiteXmr.Randomx.DatasetInit — which items of a dataset each thread computes
(`Dataset::new_for_algo`).

RandomX counts items in a `c_ulong`, whose width depends on the platform; the
number of threads is a `usize`. All sums and products here are those of the
machine, modulo the width of their type. `initCalls` are the calls of
`randomx_init_dataset`, in the order of the workers; they run in parallel.
-/
import Mathlib.Algebra.Ring.Nat

namespace LiteXmr.Randomx

/-- The widths of the integer types of C: 32 bit, 64-bit Windows, 64-bit Unix. -/
inductive DataModel where
  | ilp32
  | llp64
  | lp64
  deriving DecidableEq, Repr

def DataModel.usizeBits : DataModel → Nat
  | .ilp32 => 32
  | .llp64 | .lp64 => 64

def DataModel.ulongBits : DataModel → Nat
  | .ilp32 | .llp64 => 32
  | .lp64 => 64

abbrev USizeOf (m : DataModel) : Type := BitVec m.usizeBits

abbrev CULong (m : DataModel) : Type := BitVec m.ulongBits

/-! ## Methods of the integer types -/

def clamp {w : Nat} (x low high : BitVec w) : BitVec w :=
  if x < low then low else if high < x then high else x

def divCeil {w : Nat} (x y : BitVec w) : BitVec w := if 0 < x % y then x / y + 1 else x / y

def saturatingMul {w : Nat} (x y : BitVec w) : BitVec w :=
  if x.toNat * y.toNat < 2 ^ w then x * y else BitVec.allOnes w

def minOf {w : Nat} (x y : BitVec w) : BitVec w := if x ≤ y then x else y

/-! ## The calls -/

variable {m : DataModel}

def workers (threads : USizeOf m) : USizeOf m := clamp threads 1 64

def chunk (totalItems : CULong m) (threads : USizeOf m) : CULong m :=
  (divCeil (totalItems.setWidth m.usizeBits) (workers threads)).setWidth m.ulongBits

/-- A call of `randomx_init_dataset`. -/
structure InitCall (m : DataModel) where
  start : CULong m
  count : CULong m
  deriving DecidableEq

/-- What worker `i` does. -/
def initCall (totalItems : CULong m) (threads i : USizeOf m) : Option (InitCall m) :=
  let chunk := chunk totalItems threads
  let start := saturatingMul (i.setWidth m.ulongBits) chunk
  if start < totalItems then some ⟨start, minOf (totalItems - start) chunk⟩ else none

def initCalls (totalItems : CULong m) (threads : USizeOf m) : List (InitCall m) :=
  (List.range (workers threads).toNat).filterMap fun i =>
    initCall totalItems threads (BitVec.ofNat _ i)

end LiteXmr.Randomx
