/-
LiteXmr.Config.AlgoPerfTheorems — whose performance value `rx/0` gets.

The maps of the file and of the pool are merged key by key, and only afterwards are
the three names of `rx/0` taken for one. `filteredAlgoPerf_eq_some` says which of
them is left: the last one that has a positive value. So a value of the pool loses
against one of the file under a later name, where the pool does not say anything
(`pool_perf_wins_iff`).
-/
import LiteXmr.Config.Config
import LiteXmr.Lib.Overwrite
import LiteXmr.Pool.AddressTheorems

namespace LiteXmr

open Algorithms (AlgoPerf F64 filteredAlgoPerf filteredEntry isSupported normalize supportedAlgos)

/-! ## The filtered map -/

/-- A positive value under one of the names of `rx/0`. -/
def PositiveUnder (perf : AlgoPerf) (name : String) (value : F64) : Prop :=
  isSupported name = true ∧ perf[name]? = some value ∧ value.isPositive = true

theorem normalize_of_isSupported {name : String} (h : isSupported name = true) :
    normalize name = "rx/0" := beq_iff_eq.mp h

theorem isSupported_normalize (name : String) :
    isSupported (normalize name) = isSupported name := by
  by_cases h : name = "randomx" ∨ name = "randomx/0"
  · obtain rfl | rfl := h
    · rfl
    · rfl
  · rw [Algorithms.normalize, if_neg h]

/-- What an entry is for the key `k` afterwards. -/
def entryFor (k : String) (entry : String × F64) : Option F64 :=
  if k = "rx/0" ∧ isSupported entry.1 = true ∧ entry.2.isPositive = true then some entry.2 else none

theorem bind_filteredEntry (k : String) (entry : String × F64) :
    ((filteredEntry entry).bind fun kept =>
      if compare kept.1 k = .eq then some kept.2 else none) = entryFor k entry := by
  unfold filteredEntry entryFor
  simp only [isSupported_normalize, Bool.and_eq_true]
  by_cases h : isSupported entry.1 = true ∧ entry.2.isPositive = true
  · rw [if_pos h, Option.bind_some, normalize_of_isSupported h.1]
    simp only [Std.LawfulEqCmp.compare_eq_iff_eq, h, and_true]
    exact if_congr eq_comm rfl rfl
  · rw [if_neg h, Option.bind_none, if_neg fun hk => h hk.2]

theorem entryFor_rx0 {name : String} {value : F64} :
    entryFor "rx/0" (name, value) = none ↔
      ¬ (isSupported name = true ∧ value.isPositive = true) := by
  rw [entryFor, ite_eq_right_iff]
  refine ⟨fun h hpos => ?_, fun h hpos => absurd hpos.2 h⟩
  cases h ⟨rfl, hpos⟩

/-- The map has one key, with the last positive value there is. -/
theorem filteredAlgoPerf_eq_some {perf : AlgoPerf} {k : String} {v : F64} :
    (filteredAlgoPerf perf)[k]? = some v ↔
      k = "rx/0" ∧ ∃ name, PositiveUnder perf name v ∧
        ∀ later w, compare name later = .lt → ¬ PositiveUnder perf later w := by
  rw [filteredAlgoPerf, Overwrite.getElem?_ofList, Overwrite.findSomeRev?_filterMap]
  simp only [bind_filteredEntry]
  rw [Overwrite.findSomeRev?_toList]
  constructor
  · rintro ⟨name, value, hname, hentry, hlater⟩
    obtain ⟨⟨rfl, hpos⟩, hvalue⟩ := Option.ite_none_right_eq_some.mp hentry
    cases hvalue
    exact ⟨rfl, name, ⟨hpos.1, hname, hpos.2⟩, fun later w hlt hpositive =>
      entryFor_rx0.mp (hlater later w hpositive.2.1 hlt) ⟨hpositive.1, hpositive.2.2⟩⟩
  · rintro ⟨rfl, name, hpos, hlater⟩
    exact ⟨name, v, hpos.2.1, if_pos ⟨rfl, hpos.1, hpos.2.2⟩, fun later w hw hlt =>
      entryFor_rx0.mpr fun hpositive => hlater later w hlt ⟨hpositive.1, hw, hpositive.2⟩⟩

theorem filteredAlgoPerf_ne_none {perf : AlgoPerf} {name : String} {v : F64}
    (h : PositiveUnder perf name v) : (filteredAlgoPerf perf)["rx/0"]? ≠ none := by
  rw [filteredAlgoPerf, Overwrite.getElem?_ofList, Overwrite.findSomeRev?_filterMap]
  simp only [bind_filteredEntry]
  rw [List.findSomeRev?_eq_findSome?_reverse, Ne, List.findSome?_eq_none_iff]
  intro hnone
  have hmem := Std.TreeMap.mem_toList_iff_getElem?_eq_some.mpr h.2.1
  exact entryFor_rx0.mp (hnone (name, v) (List.mem_reverse.mpr hmem)) ⟨h.1, h.2.2⟩

/-! ## The merged map -/

def filePerf (fileCfg : Option FileConfig) : AlgoPerf := (fileCfg.map (·.algoPerf)).getD ∅

def poolPerf (pool : Option PoolConfig) : AlgoPerf := (pool.map (·.algoPerf)).getD ∅

theorem getElem?_mergeAlgoPerf (fileCfg : Option FileConfig) (pool : Option PoolConfig)
    (name : String) :
    (mergeAlgoPerf fileCfg pool)[name]? = (poolPerf pool)[name]?.or (filePerf fileCfg)[name]? := by
  cases pool with
  | none =>
      have hempty : (poolPerf none)[name]? = none := Std.TreeMap.getElem?_emptyc
      rw [hempty, Option.none_or]
      rfl
  | some pool => exact Overwrite.getElem?_insertMany_toList _ pool.algoPerf name

/-! ## Precedence -/

/-- The value for `rx/0` is one of the pool, where it has one, and nothing else is left. -/
structure PoolPerfWins (pool : Option PoolConfig) (merged : AlgoPerf) : Prop where
  pool : ∀ name v, PositiveUnder (poolPerf pool) name v →
    ∃ name' v', PositiveUnder (poolPerf pool) name' v' ∧
      (filteredAlgoPerf merged)["rx/0"]? = some v'
  supported : ∀ k v, (filteredAlgoPerf merged)[k]? = some v →
    k ∈ supportedAlgos ∧ v.isPositive = true

/-- The file has a positive value under a name that the pool leaves out, there is no positive
value under a later name, and the pool has positive values, but not this one. -/
def FileOvertakes (file pool : AlgoPerf) : Prop :=
  (∃ name v, PositiveUnder pool name v) ∧
    ∃ name v, pool[name]? = none ∧ PositiveUnder file name v ∧
      (∀ later w, compare name later = .lt → isSupported later = true →
        pool[later]?.or file[later]? = some w → w.isPositive = false) ∧
      ∀ name', ¬ PositiveUnder pool name' v

section

variable {fileCfg : Option FileConfig} {pool : Option PoolConfig}

/-- Where the pool has an entry, it is the merged one. -/
theorem positiveUnder_merged {name : String} {v : F64}
    (h : PositiveUnder (poolPerf pool) name v) :
    PositiveUnder (mergeAlgoPerf fileCfg pool) name v := by
  refine ⟨h.1, ?_, h.2.2⟩
  rw [getElem?_mergeAlgoPerf, h.2.1]
  rfl

theorem not_wins_of_fileOvertakes (h : FileOvertakes (filePerf fileCfg) (poolPerf pool)) :
    ¬ PoolPerfWins pool (mergeAlgoPerf fileCfg pool) := by
  intro hwins
  obtain ⟨⟨name', v', hpool⟩, name, v, hleft, hfile, hlater, hother⟩ := h
  obtain ⟨name'', w, hpositive, hw⟩ := hwins.pool name' v' hpool
  have hv : (filteredAlgoPerf (mergeAlgoPerf fileCfg pool))["rx/0"]? = some v := by
    refine filteredAlgoPerf_eq_some.mpr ⟨rfl, name, ⟨hfile.1, ?_, hfile.2.2⟩, ?_⟩
    · rw [getElem?_mergeAlgoPerf, hleft, hfile.2.1]
      rfl
    · rintro later u hlt ⟨hsupported, hu, hpos⟩
      rw [getElem?_mergeAlgoPerf] at hu
      rw [hlater later u hlt hsupported hu] at hpos
      cases hpos
  rw [hv, Option.some.injEq] at hw
  subst hw
  exact hother name'' hpositive

theorem wins_of_not_fileOvertakes (h : ¬ FileOvertakes (filePerf fileCfg) (poolPerf pool)) :
    PoolPerfWins pool (mergeAlgoPerf fileCfg pool) := by
  refine { pool := fun name' v' hpool => ?_, supported := fun k v hv => ?_ }
  · have hmerged : PositiveUnder (mergeAlgoPerf fileCfg pool) name' v' :=
      positiveUnder_merged hpool
    obtain ⟨v, hv⟩ := Option.ne_none_iff_exists'.mp (filteredAlgoPerf_ne_none hmerged)
    obtain ⟨-, name, hpos, hlater⟩ := filteredAlgoPerf_eq_some.mp hv
    -- the value is one of the pool, or the file has overtaken it
    by_contra hnone
    have hother : ∀ name, ¬ PositiveUnder (poolPerf pool) name v := fun name hpositive =>
      hnone ⟨name, v, hpositive, hv⟩
    have hmerged := hpos.2.1
    rw [getElem?_mergeAlgoPerf] at hmerged
    cases hleft : (poolPerf pool)[name]? with
    | some w =>
        rw [hleft] at hmerged
        cases hmerged
        exact hother name ⟨hpos.1, hleft, hpos.2.2⟩
    | none =>
        rw [hleft, Option.none_or] at hmerged
        refine h ⟨⟨name', v', hpool⟩, name, v, hleft, ⟨hpos.1, hmerged, hpos.2.2⟩, ?_, hother⟩
        intro later w hlt hsupported hw
        refine Bool.eq_false_iff.mpr fun hpositive => hlater later w hlt ⟨hsupported, ?_, hpositive⟩
        rw [getElem?_mergeAlgoPerf, hw]
  · obtain ⟨rfl, name, hpos, -⟩ := filteredAlgoPerf_eq_some.mp hv
    exact ⟨List.mem_singleton_self _, hpos.2.2⟩

end

/-- The values of the pool win exactly when the file does not overtake them. -/
theorem pool_perf_wins_iff {numCpus : Nat} {args : Args} {fileCfg : Option FileConfig}
    {config : Config} (h : Config.load numCpus args fileCfg = .ok config) :
    PoolPerfWins (fileCfg.bind selectedPool) config.algoPerf ↔
      ¬ FileOvertakes (filePerf fileCfg) (poolPerf (fileCfg.bind selectedPool)) := by
  obtain ⟨poolUrl, -, h⟩ := bind_eq_ok h
  cases h
  exact ⟨fun hwins hovertakes => not_wins_of_fileOvertakes hovertakes hwins,
    wins_of_not_fileOvertakes⟩

/-- The bits of `100.0` and `200.0`. -/
def hundred : F64 := ⟨0x4059000000000000⟩

def twoHundred : F64 := ⟨0x4069000000000000⟩

/-- A map with one entry. -/
def single (name : String) (value : F64) : AlgoPerf := Std.TreeMap.ofList [(name, value)]

theorem positiveUnder_single {name k : String} {value v : F64}
    (h : PositiveUnder (single name value) k v) : k = name ∧ v = value := by
  have hmem := Std.TreeMap.mem_toList_iff_getElem?_eq_some.mpr h.2.1
  change (k, v) ∈ [(name, value)] at hmem
  rw [List.mem_singleton, Prod.mk.injEq] at hmem
  exact hmem

/-- A file with one entry of its own, and a pool with one. -/
def perfFile (fileName poolName : String) : FileConfig where
  pool := some { url := some "pool.example:443", algoPerf := single poolName twoHundred }
  algoPerf := single fileName hundred

/-- The name that the pool uses is the later one. -/
theorem pool_perf_wins_later :
    ∃ config, Config.load 1 {} (some (perfFile "randomx" "rx/0")) = .ok config ∧
      PoolPerfWins (selectedPool (perfFile "randomx" "rx/0")) config.algoPerf := by
  refine ⟨_, rfl, (pool_perf_wins_iff
    (rfl : Config.load 1 {} (some (perfFile "randomx" "rx/0")) = .ok _)).mpr ?_⟩
  rintro ⟨-, name, v, -, hfile, hlater, -⟩
  obtain ⟨rfl, rfl⟩ := positiveUnder_single hfile
  -- the value of the pool stands behind that of the file
  have hnot := hlater "rx/0" twoHundred (by decide) (by decide) (by rfl)
  exact absurd hnot (by decide)

/-- The name that the pool uses is the earlier one, and its value is lost. -/
theorem file_overtakes_pool :
    ∃ config, Config.load 1 {} (some (perfFile "rx/0" "randomx")) = .ok config ∧
      (filteredAlgoPerf config.algoPerf)["rx/0"]? = some hundred ∧
      ¬ PoolPerfWins (selectedPool (perfFile "rx/0" "randomx")) config.algoPerf := by
  have htaken : (filteredAlgoPerf (mergeAlgoPerf (some (perfFile "rx/0" "randomx"))
      (selectedPool (perfFile "rx/0" "randomx"))))["rx/0"]? = some hundred := by decide +kernel
  refine ⟨_, rfl, htaken, fun hwins => ?_⟩
  obtain ⟨name, v, hpositive, hv⟩ := hwins.pool "randomx" twoHundred
    ⟨by decide, by decide +kernel, by decide⟩
  obtain ⟨-, rfl⟩ := positiveUnder_single hpositive
  have hsame := htaken.symm.trans hv
  exact absurd hsame (by decide)

end LiteXmr
