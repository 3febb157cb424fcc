/-
LiteXmr.Algorithms — the algorithm names of `algorithms.rs`.

`isSupported_iff` lists the accepted spellings. None of them contains a
colon (`colon_not_mem_of_isSupported`), which is what makes the dataset
cache key `algo:seed` injective.

`filteredAlgoPerf` goes over a map in the order of its keys and collects into
another one, where an equal key overwrites.
-/
import Mathlib.Tactic.Common

namespace LiteXmr.Algorithms

def rx0 : String := "rx/0"

def supportedAlgos : List String := [rx0]

def normalize (algo : String) : String :=
  if algo = "randomx" ∨ algo = "randomx/0" then "rx/0" else algo

def isSupported (algo : String) : Bool := normalize algo == "rx/0"

/-! ## Performance data -/

/-- An `f64`, as its bits. -/
structure F64 where
  bits : UInt64
  deriving DecidableEq

/-- `x > 0.0`: the sign bit is clear, and the number is neither zero nor a NaN. -/
def F64.isPositive (x : F64) : Bool := 0 < x.bits && x.bits ≤ 0x7FF0000000000000

/-- `BTreeMap<String, f64>`; the keys are ordered by their characters, which is the order of
their bytes. -/
abbrev AlgoPerf := Std.TreeMap String F64

/-- The entry that one key leaves in the filtered map. -/
def filteredEntry (entry : String × F64) : Option (String × F64) :=
  let normalized := normalize entry.1
  if isSupported normalized && entry.2.isPositive then some (normalized, entry.2) else none

def filteredAlgoPerf (configured : AlgoPerf) : AlgoPerf :=
  Std.TreeMap.ofList (configured.toList.filterMap filteredEntry)

/-! ## Spellings -/

theorem isSupported_iff (algo : String) :
    isSupported algo = true ↔ algo = "rx/0" ∨ algo = "randomx" ∨ algo = "randomx/0" := by
  simp only [isSupported, normalize, beq_iff_eq]
  split
  · next h => simp [h]
  · next h =>
      rw [not_or] at h
      simp [h.1, h.2]

theorem colon_not_mem_of_isSupported {algo : String} (h : isSupported algo = true) :
    ':' ∉ algo.toList := by
  rcases (isSupported_iff algo).mp h with rfl | rfl | rfl <;> decide

end LiteXmr.Algorithms
