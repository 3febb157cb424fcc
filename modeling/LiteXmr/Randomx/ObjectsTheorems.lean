/-
LiteXmr.Randomx.ObjectsTheorems — no operation uses an object of RandomX that
is not there.

`Sound` says when a call of the library may be made, in terms of the calls
before it: objects are used and released only while they live, and a dataset is
released after the VMs that run on it. `Ledger` says what the calls so far tell
about the owners: a dataset is released once nobody holds it, a VM is
destroyed once nobody has it, and a cache once a dataset has been filled from it.

Each operation keeps the ledger and makes sound calls (`Kept`), provided that
an owner which is given something has nothing. `Kept.andThen` composes them.
-/
import LiteXmr.Randomx.Objects

namespace LiteXmr.Randomx

universe u

theorem getElem?_snoc {α : Type u} {xs : List α} {x y : α} {i : Nat} :
    (xs ++ [x])[i]? = some y ↔ xs[i]? = some y ∨ i = xs.length ∧ x = y := by
  by_cases hi : i < xs.length
  · rw [List.getElem?_append_left hi, or_iff_left]
    rintro ⟨rfl, -⟩
    exact Nat.lt_irrefl _ hi
  · rw [List.getElem?_append_right (Nat.le_of_not_lt hi),
      List.getElem?_eq_none (Nat.le_of_not_lt hi), List.getElem?_singleton]
    have hlast : i - xs.length = 0 ↔ i = xs.length := by omega
    simp [hlast]

theorem update_eq_some {κ : Type u} [DecidableEq κ] {f : κ → Option Nat} {o p : κ}
    {x : Option Nat} {v : Nat} : Function.update f o x p = some v ↔
      p = o ∧ x = some v ∨ p ≠ o ∧ f p = some v := by
  by_cases hp : p = o
  · subst hp
    simp
  · simp [hp]

/-! ## Sound calls -/

def CacheLive (pre : List NativeCall) (c : Nat) : Prop :=
  .allocCache c ∈ pre ∧ .releaseCache c ∉ pre

instance (pre : List NativeCall) (c : Nat) : Decidable (CacheLive pre c) :=
  inferInstanceAs (Decidable (_ ∧ _))

def DatasetLive (pre : List NativeCall) (d : Nat) : Prop :=
  .allocDataset d ∈ pre ∧ .releaseDataset d ∉ pre

/-- The VM is not destroyed, and neither is the dataset it runs on. -/
def VmLive (pre : List NativeCall) (v : Nat) : Prop :=
  (∃ d, .createVm v d ∈ pre ∧ DatasetLive pre d) ∧ .destroyVm v ∉ pre

/-- The call may be made after the calls `pre`. -/
def Sound (pre : List NativeCall) : NativeCall → Prop
  | .allocCache c => .allocCache c ∉ pre
  | .initCache c _ => CacheLive pre c
  | .releaseCache c => CacheLive pre c
  | .allocDataset d => .allocDataset d ∉ pre
  | .initDataset d c =>
      DatasetLive pre d ∧ CacheLive pre c ∧ (∃ key, .initCache c key ∈ pre) ∧
        ∀ v, .createVm v d ∉ pre
  | .releaseDataset d => DatasetLive pre d ∧ ∀ v, .createVm v d ∈ pre → .destroyVm v ∈ pre
  | .createVm v d =>
      (∀ d', .createVm v d' ∉ pre) ∧ DatasetLive pre d ∧ ∃ c, .initDataset d c ∈ pre
  | .calculateHash v _ => VmLive pre v
  | .destroyVm v => VmLive pre v

/-! ## The ledger -/

section

variable {κ : Type u}

/-- What the calls so far say of the objects and their owners. -/
structure Ledger (n : Objects κ) (tr : List NativeCall) : Prop where
  exact : n.arcs.Exact
  held : ∀ o d, n.arcs.holds o = some d → d < n.datasets.length
  /-- The owner of a VM holds the dataset it runs on. -/
  vmHeld : ∀ o v, n.vmAt o = some v → ∃ d, n.vms[v]? = some d ∧ n.arcs.holds o = some d
  vmOne : ∀ o o' v, n.vmAt o = some v → n.vmAt o' = some v → o = o'
  cacheMade : ∀ c, .allocCache c ∈ tr ↔ c < n.caches
  cacheReleased : ∀ c, .releaseCache c ∈ tr ↔ ∃ d, .initDataset d c ∈ tr
  filled : ∀ (d : Nat) (x : Dataset), n.datasets[d]? = some x →
    ∃ c, .initDataset d c ∈ tr ∧ .initCache c x.seed ∈ tr
  filledMade : ∀ d c, .initDataset d c ∈ tr → d < n.datasets.length ∧ c < n.caches
  datasetMade : ∀ d, .allocDataset d ∈ tr ↔ d < n.datasets.length
  datasetReleased : ∀ d, .releaseDataset d ∈ tr ↔ d < n.datasets.length ∧ ¬ n.arcs.Held d
  vmMade : ∀ v d : Nat, .createVm v d ∈ tr ↔ n.vms[v]? = some d
  vmOn : ∀ v d : Nat, n.vms[v]? = some d → d < n.datasets.length
  vmDestroyed : ∀ v, .destroyVm v ∈ tr ↔ v < n.vms.length ∧ ∀ o, n.vmAt o ≠ some v

/-- An operation that keeps the ledger and makes sound calls. -/
structure Kept (tr : List NativeCall) (r : Objects κ × List NativeCall) : Prop where
  ledger : Ledger r.1 (tr ++ r.2)
  sound : Lts.Justified (fun pre x => Sound (tr ++ pre) x) r.2

variable {n : Objects κ} {tr : List NativeCall} {o o' : κ}

theorem ledger_empty : Ledger (.empty : Objects κ) [] where
  exact := Counted.exact_empty
  held := by simp [Objects.empty, Counted.empty]
  vmHeld := by simp [Objects.empty]
  vmOne := by simp [Objects.empty]
  cacheMade := by simp [Objects.empty]
  cacheReleased := by simp
  filled := by simp [Objects.empty]
  filledMade := by simp
  datasetMade := by simp [Objects.empty]
  datasetReleased := by simp [Objects.empty]
  vmMade := by simp [Objects.empty]
  vmOn := by simp [Objects.empty]
  vmDestroyed := by simp [Objects.empty]

/-! ### Hashing -/

/-- Calls that only hash. -/
def Hashes (v : Nat) (calls : List NativeCall) : Prop :=
  ∀ x ∈ calls, ∃ input, x = .calculateHash v input

theorem hashes_map (v : Nat) (inputs : List Bytes) :
    Hashes v (inputs.map (.calculateHash v)) := fun _ hx => by
  obtain ⟨input, -, rfl⟩ := List.mem_map.mp hx
  exact ⟨input, rfl⟩

theorem mem_append_hashes {v : Nat} {calls : List NativeCall} (hcalls : Hashes v calls)
    {x : NativeCall} (hx : ∀ input, x ≠ .calculateHash v input) :
    x ∈ tr ++ calls ↔ x ∈ tr := by
  rw [List.mem_append, or_iff_left]
  intro hmem
  obtain ⟨input, rfl⟩ := hcalls x hmem
  exact hx input rfl

namespace Ledger

/-- A dataset stays filled. -/
theorem filled_append (h : Ledger n tr) (calls : List NativeCall) (d : Nat) (x : Dataset)
    (hx : n.datasets[d]? = some x) :
    ∃ c, .initDataset d c ∈ tr ++ calls ∧ .initCache c x.seed ∈ tr ++ calls := by
  obtain ⟨c, hinit, hkey⟩ := h.filled d x hx
  exact ⟨c, List.mem_append_left _ hinit, List.mem_append_left _ hkey⟩

theorem append_hashes (h : Ledger n tr) {v : Nat} {calls : List NativeCall}
    (hcalls : Hashes v calls) : Ledger n (tr ++ calls) where
  exact := h.exact
  held := h.held
  vmHeld := h.vmHeld
  vmOne := h.vmOne
  vmOn := h.vmOn
  cacheMade c := (mem_append_hashes hcalls (by simp)).trans (h.cacheMade c)
  cacheReleased c := by
    rw [mem_append_hashes hcalls (by simp), h.cacheReleased]
    exact exists_congr fun d => (mem_append_hashes hcalls (by simp)).symm
  filled := h.filled_append calls
  filledMade d c hinit := h.filledMade d c ((mem_append_hashes hcalls (by simp)).mp hinit)
  datasetMade d := (mem_append_hashes hcalls (by simp)).trans (h.datasetMade d)
  datasetReleased d := (mem_append_hashes hcalls (by simp)).trans (h.datasetReleased d)
  vmMade v d := (mem_append_hashes hcalls (by simp)).trans (h.vmMade v d)
  vmDestroyed v := (mem_append_hashes hcalls (by simp)).trans (h.vmDestroyed v)

theorem datasetLive (h : Ledger n tr) {d : Nat} : DatasetLive tr d ↔ n.arcs.Held d := by
  rw [DatasetLive, h.datasetMade, h.datasetReleased]
  constructor
  · rintro ⟨hd, hnot⟩
    by_contra hfree
    exact hnot ⟨hd, hfree⟩
  · rintro hheld
    obtain ⟨o, ho⟩ := hheld
    exact ⟨h.held o d ho, fun hfree => hfree.2 ⟨o, ho⟩⟩

theorem vmLive (h : Ledger n tr) {v : Nat} : VmLive tr v ↔ ∃ o, n.vmAt o = some v := by
  constructor
  · rintro ⟨⟨d, hmade, -⟩, hnot⟩
    have hv : v < n.vms.length := (List.getElem?_eq_some_iff.mp ((h.vmMade v d).mp hmade)).1
    by_contra hfree
    exact hnot ((h.vmDestroyed v).mpr ⟨hv, not_exists.mp hfree⟩)
  · rintro ⟨o, ho⟩
    obtain ⟨d, hvm, hd⟩ := h.vmHeld o v ho
    exact ⟨⟨d, (h.vmMade v d).mpr hvm, h.datasetLive.mpr ⟨o, hd⟩⟩,
      fun hgone => ((h.vmDestroyed v).mp hgone).2 o ho⟩

/-- The caches that stay: no dataset was filled from them. -/
theorem cacheLive (h : Ledger n tr) {c : Nat} :
    CacheLive tr c ↔ .allocCache c ∈ tr ∧ ∀ d, .initDataset d c ∉ tr := by
  rw [CacheLive, h.cacheReleased, not_exists]

/-- The dataset could not be allocated: the cache is left behind. -/
theorem leaveCache (h : Ledger n tr) (seed : Bytes) :
    Ledger { n with caches := n.caches + 1 }
      (tr ++ [.allocCache n.caches, .initCache n.caches seed]) :=
  { h with
    cacheMade := fun c => by simp [h.cacheMade]; omega
    cacheReleased := fun c => by simp [h.cacheReleased]
    filled := h.filled_append _
    filledMade := fun d c hmem => by
      have hold := h.filledMade d c (by simpa using hmem)
      exact ⟨hold.1, Nat.lt_succ_of_lt hold.2⟩
    datasetMade := fun d => by simp [h.datasetMade]
    datasetReleased := fun d => by simp [h.datasetReleased]
    vmMade := fun v d => by simp [h.vmMade]
    vmDestroyed := fun v => by simp [h.vmDestroyed] }

/-- A dataset is made, and its cache released. -/
theorem makeDataset [DecidableEq κ] (h : Ledger n tr) (ho : n.arcs.holds o = none)
    (algo : String) (seed : Bytes) :
    Ledger
      { n with
        caches := n.caches + 1
        datasets := n.datasets ++ [{ algo, seed }]
        arcs := n.arcs.make o n.datasets.length }
      (tr ++ [.allocCache n.caches, .initCache n.caches seed, .allocDataset n.datasets.length,
        .initDataset n.datasets.length n.caches, .releaseCache n.caches]) where
  exact := by
    refine h.exact.make ho ?_
    rintro ⟨p, hp⟩
    exact Nat.lt_irrefl _ (h.held p _ hp)
  held p d hp := by
    rw [List.length_append, List.length_singleton]
    by_cases hpo : p = o
    · subst hpo
      rw [Counted.make_holds_self] at hp
      cases hp
      exact Nat.lt_succ_self _
    · rw [Counted.make_holds_of_ne hpo] at hp
      exact Nat.lt_succ_of_lt (h.held p d hp)
  vmHeld p v hp := by
    obtain ⟨d, hvm, hd⟩ := h.vmHeld p v hp
    have hpo : p ≠ o := by
      rintro rfl
      rw [ho] at hd
      cases hd
    exact ⟨d, hvm, by rw [Counted.make_holds_of_ne hpo, hd]⟩
  vmOne := h.vmOne
  vmOn v d hv := by
    rw [List.length_append, List.length_singleton]
    exact Nat.lt_succ_of_lt (h.vmOn v d hv)
  cacheMade c := by simp [h.cacheMade]; omega
  cacheReleased c := by simp [h.cacheReleased, exists_or]
  filled d x hx := by
    rcases getElem?_snoc.mp hx with hold | ⟨rfl, rfl⟩
    · exact h.filled_append _ d x hold
    · exact ⟨n.caches, by simp, by simp⟩
  filledMade d c hmem := by
    rw [List.length_append, List.length_singleton]
    have hcases : .initDataset d c ∈ tr ∨ d = n.datasets.length ∧ c = n.caches := by
      simpa using hmem
    rcases hcases with hold | ⟨rfl, rfl⟩
    · have hlt := h.filledMade d c hold
      exact ⟨Nat.lt_succ_of_lt hlt.1, Nat.lt_succ_of_lt hlt.2⟩
    · exact ⟨Nat.lt_succ_self _, Nat.lt_succ_self _⟩
  datasetMade d := by simp [h.datasetMade]; omega
  datasetReleased d := by
    rw [Counted.held_make ho, List.length_append, List.length_singleton]
    have hmem : .releaseDataset d ∈ tr ↔
        d < n.datasets.length + 1 ∧ ¬ (d = n.datasets.length ∨ n.arcs.Held d) := by
      rw [h.datasetReleased, not_or]
      constructor
      · rintro ⟨hlt, hnot⟩
        exact ⟨Nat.lt_succ_of_lt hlt, Nat.ne_of_lt hlt, hnot⟩
      · rintro ⟨hlt, hne, hnot⟩
        exact ⟨by omega, hnot⟩
    simpa using hmem
  vmMade v d := by simp [h.vmMade]
  vmDestroyed v := by simp [h.vmDestroyed]

/-- The owner of a dataset has a VM made of it. -/
theorem makeVm [DecidableEq κ] (h : Ledger n tr) {d : Nat} (hv : n.vmAt o = none)
    (ho : n.arcs.holds o = some d) :
    Ledger
      { n with
        vms := n.vms ++ [d]
        vmAt := Function.update n.vmAt o (some n.vms.length) }
      (tr ++ [.createVm n.vms.length d]) := by
  have hother : ∀ p, n.vmAt p ≠ some n.vms.length := fun p hp => by
    obtain ⟨d', hvm, -⟩ := h.vmHeld p _ hp
    exact Nat.lt_irrefl _ (List.getElem?_eq_some_iff.mp hvm).1
  have hdestroyed : ∀ v, .destroyVm v ∈ tr ↔ v < n.vms.length + 1 ∧
      ∀ p, Function.update n.vmAt o (some n.vms.length) p ≠ some v := by
    intro v
    rw [h.vmDestroyed]
    constructor
    · rintro ⟨hlt, hfree⟩
      refine ⟨Nat.lt_succ_of_lt hlt, fun p hp => ?_⟩
      rcases update_eq_some.mp hp with ⟨-, hnow⟩ | ⟨-, hold⟩
      · exact Nat.ne_of_gt hlt (Option.some.inj hnow)
      · exact hfree p hold
    · rintro ⟨hlt, hfree⟩
      have hne : v ≠ n.vms.length := fun heq =>
        hfree o (update_eq_some.mpr (Or.inl ⟨rfl, by rw [heq]⟩))
      refine ⟨by omega, fun p hp => ?_⟩
      by_cases hpo : p = o
      · rw [hpo, hv] at hp
        cases hp
      · exact hfree p (update_eq_some.mpr (Or.inr ⟨hpo, hp⟩))
  exact
    { exact := h.exact, held := h.held
      vmHeld := fun p v hp => by
        rcases update_eq_some.mp hp with ⟨rfl, hnow⟩ | ⟨-, hold⟩
        · cases hnow
          exact ⟨d, getElem?_snoc.mpr (Or.inr ⟨rfl, rfl⟩), ho⟩
        · obtain ⟨d', hvm, hd'⟩ := h.vmHeld p v hold
          exact ⟨d', getElem?_snoc.mpr (Or.inl hvm), hd'⟩
      vmOne := fun p p' v hp hp' => by
        rcases update_eq_some.mp hp with ⟨rfl, hnow⟩ | ⟨-, hold⟩ <;>
          rcases update_eq_some.mp hp' with ⟨rfl, hnow'⟩ | ⟨-, hold'⟩
        · rfl
        · cases hnow
          exact absurd hold' (hother p')
        · cases hnow'
          exact absurd hold (hother p)
        · exact h.vmOne p p' v hold hold'
      cacheMade := fun c => by simp [h.cacheMade]
      cacheReleased := fun c => by simp [h.cacheReleased]
      filled := h.filled_append _
      filledMade := fun d c hmem => h.filledMade d c (by simpa using hmem)
      datasetMade := fun d => by simp [h.datasetMade]
      datasetReleased := fun d => by simp [h.datasetReleased]
      vmMade := fun v d' => by
        rw [getElem?_snoc, ← h.vmMade]
        simp [eq_comm]
      vmOn := fun v d' hv => by
        rcases getElem?_snoc.mp hv with hold | ⟨-, rfl⟩
        · exact h.vmOn v d' hold
        · exact h.held o _ ho
      vmDestroyed := fun v => by simpa using hdestroyed v }

end Ledger

/-! ## The operations -/

namespace Kept

theorem skip (h : Ledger n tr) : Kept tr (Action.skip n) where
  ledger := by simpa [Action.skip] using h
  sound := Lts.justified_nil

/-- One operation after another. -/
theorem andThen {f g : Action κ} (hf : Kept tr (f n))
    (hg : Ledger (f n).1 (tr ++ (f n).2) → Kept (tr ++ (f n).2) (g (f n).1)) :
    Kept tr (f.andThen g n) where
  ledger := by
    rw [Action.andThen, ← List.append_assoc]
    exact (hg hf.ledger).ledger
  sound pre x post hsplit := by
    rcases List.append_eq_append_iff.mp hsplit with ⟨mid, rfl, hlater⟩ | ⟨mid, hfirst, hmid⟩
    · rw [← List.append_assoc]
      exact (hg hf.ledger).sound mid x post hlater
    · cases mid with
      | nil =>
          have hpre : (f n).2 = pre := by simpa using hfirst
          have hlater : (g (f n).1).2 = [] ++ x :: post := by simpa using hmid.symm
          have hsound := (hg hf.ledger).sound [] x post hlater
          rwa [hpre, List.append_nil] at hsound
      | cons y mid =>
          obtain ⟨rfl, -⟩ := List.cons.inj hmid
          exact hf.sound pre x mid hfirst

/-- An operation with one call. -/
theorem of_one {n' : Objects κ} {x : NativeCall} (h : Ledger n' (tr ++ [x])) (hx : Sound tr x) :
    Kept tr (n', [x]) where
  ledger := h
  sound pre y post hsplit := by
    cases pre with
    | nil =>
        obtain ⟨rfl, -⟩ := List.cons.inj hsplit
        simpa using hx
    | cons z pre => simp at hsplit

/-- An operation without a call. -/
theorem of_none {n' : Objects κ} (h : Ledger n' tr) : Kept tr (n', []) where
  ledger := by simpa using h
  sound := Lts.justified_nil

/-- Hashing changes nothing. -/
theorem hashBatch (h : Ledger n tr) (o : κ) (inputs : List Bytes) :
    Kept tr (hashBatch o inputs n) := by
  unfold Randomx.hashBatch
  cases hv : n.vmAt o with
  | none => exact of_none h
  | some v =>
      have hall := hashes_map v inputs
      refine ⟨h.append_hashes hall, fun pre x post hsplit => ?_⟩
      have hmap : inputs.map (NativeCall.calculateHash v) = pre ++ x :: post := hsplit
      rw [hmap] at hall
      obtain ⟨hpre, hx⟩ := List.forall_mem_append.mp hall
      obtain ⟨input, rfl⟩ := hx x List.mem_cons_self
      exact (h.append_hashes hpre).vmLive.mpr ⟨o, hv⟩

variable [DecidableEq κ]

theorem newForAlgo (h : Ledger n tr) (ho : n.arcs.holds o = none) (algo : String)
    (seed : Bytes) (allocs : DatasetAllocs) : Kept tr (newForAlgo o algo seed allocs n) := by
  have hcache : .allocCache n.caches ∉ tr := by simp [h.cacheMade]
  have hinit : ∀ d, .initDataset d n.caches ∉ tr := fun d hmem =>
    Nat.lt_irrefl _ (h.filledMade d _ hmem).2
  have hrelease : .releaseCache n.caches ∉ tr := fun hmem => by
    obtain ⟨d, hd⟩ := (h.cacheReleased _).mp hmem
    exact hinit d hd
  have hdataset : .allocDataset n.datasets.length ∉ tr := by simp [h.datasetMade]
  have hfree : .releaseDataset n.datasets.length ∉ tr := by simp [h.datasetReleased]
  have hvm : ∀ v, .createVm v n.datasets.length ∉ tr := fun v hmem =>
    Nat.lt_irrefl _ (h.vmOn v _ ((h.vmMade v _).mp hmem))
  unfold Randomx.newForAlgo
  split
  · exact of_none h
  split
  · exact of_none h
  split
  · exact of_none h
  split
  · exact of_none h
  split
  · refine ⟨h.leaveCache seed, (Lts.justified_snoc [_] _).mpr
      ⟨(Lts.justified_snoc [] _).mpr ⟨Lts.justified_nil, ?_⟩, ?_⟩⟩
    · simpa [Sound] using hcache
    · simp [Sound, CacheLive, hrelease]
  · refine ⟨h.makeDataset ho algo seed, (Lts.justified_snoc [_, _, _, _] _).mpr
      ⟨(Lts.justified_snoc [_, _, _] _).mpr ⟨(Lts.justified_snoc [_, _] _).mpr
        ⟨(Lts.justified_snoc [_] _).mpr ⟨(Lts.justified_snoc [] _).mpr
          ⟨Lts.justified_nil, ?_⟩, ?_⟩, ?_⟩, ?_⟩, ?_⟩⟩
    · simpa [Sound] using hcache
    · simp [Sound, CacheLive, hrelease]
    · simpa [Sound] using hdataset
    · simp [Sound, DatasetLive, CacheLive, hrelease, hfree, hvm]
    · simp [Sound, CacheLive, hrelease]

theorem cloneArc (h : Ledger n tr) (ho' : n.arcs.holds o' = none) :
    Kept tr (cloneArc o o' n) := of_none
  { h with
    exact := h.exact.clone ho'
    held := fun p d hp => by
      by_cases hpo : p = o'
      · subst hpo
        rw [Counted.clone_holds_self ho'] at hp
        exact h.held o d hp
      · rw [Counted.clone_holds_of_ne hpo] at hp
        exact h.held p d hp
    vmHeld := fun p v hp => by
      obtain ⟨d, hvm, hd⟩ := h.vmHeld p v hp
      have hpo : p ≠ o' := by
        rintro rfl
        rw [ho'] at hd
        cases hd
      exact ⟨d, hvm, by rw [Counted.clone_holds_of_ne hpo, hd]⟩
    datasetReleased := fun d => by rw [Counted.held_clone ho', h.datasetReleased] }

/-- An owner that has no VM lets go of its dataset. -/
theorem dropArc (h : Ledger n tr) (hv : n.vmAt o = none) : Kept tr (dropArc o n) := by
  have hother : ∀ p v, n.vmAt p = some v → p ≠ o := by
    rintro p v hp rfl
    rw [hv] at hp
    cases hp
  have hheld : ∀ p d, (n.arcs.drop o).1.holds p = some d → d < n.datasets.length := by
    intro p d hp
    have hpo : p ≠ o := by
      rintro rfl
      rw [Counted.drop_holds_self] at hp
      cases hp
    exact h.held p d (by rwa [Counted.drop_holds_of_ne hpo] at hp)
  have hvmHeld : ∀ p v, n.vmAt p = some v →
      ∃ d, n.vms[v]? = some d ∧ (n.arcs.drop o).1.holds p = some d := by
    intro p v hp
    obtain ⟨d, hvm, hd⟩ := h.vmHeld p v hp
    exact ⟨d, hvm, by rw [Counted.drop_holds_of_ne (hother p v hp), hd]⟩
  cases hrel : (n.arcs.drop o).2 with
  | none =>
      have hdrop : Randomx.dropArc o n = ({ n with arcs := (n.arcs.drop o).1 }, []) := by
        simp [Randomx.dropArc, hrel]
      rw [hdrop]
      refine of_none
        { exact := h.exact.drop o, held := hheld, vmHeld := hvmHeld, vmOne := h.vmOne
          cacheMade := h.cacheMade, cacheReleased := h.cacheReleased, filled := h.filled
          filledMade := h.filledMade, datasetMade := h.datasetMade, vmMade := h.vmMade
          vmOn := h.vmOn, vmDestroyed := h.vmDestroyed
          datasetReleased := fun d => ?_ }
      rw [h.exact.held_drop, hrel, h.datasetReleased]
      simp
  | some d =>
      have hdrop : Randomx.dropArc o n =
          ({ n with arcs := (n.arcs.drop o).1 }, [.releaseDataset d]) := by
        simp [Randomx.dropArc, hrel]
      rw [hdrop]
      obtain ⟨ho, hfree⟩ := h.exact.released_iff.mp hrel
      have hvms : ∀ v, .createVm v d ∈ tr → .destroyVm v ∈ tr := fun v hmade => by
        have hvm := (h.vmMade v d).mp hmade
        refine (h.vmDestroyed v).mpr ⟨(List.getElem?_eq_some_iff.mp hvm).1, fun p hp => hfree ?_⟩
        obtain ⟨d', hvm', hd'⟩ := hvmHeld p v hp
        rw [hvm] at hvm'
        cases hvm'
        exact ⟨p, hd'⟩
      refine of_one ?_ (show Sound tr (.releaseDataset d) from
        ⟨h.datasetLive.mpr ⟨o, ho⟩, hvms⟩)
      exact
        { exact := h.exact.drop o, held := hheld, vmHeld := hvmHeld, vmOne := h.vmOne
          vmOn := h.vmOn
          cacheMade := fun c => by simp [h.cacheMade]
          cacheReleased := fun c => by simp [h.cacheReleased]
          filled := h.filled_append _
          filledMade := fun d c hmem => h.filledMade d c (by simpa using hmem)
          datasetMade := fun d => by simp [h.datasetMade]
          datasetReleased := fun d' => by
            rw [List.mem_append, h.datasetReleased, h.exact.held_drop, hrel]
            by_cases hd' : d' = d
            · subst hd'
              simp [h.held o d' ho]
            · simp [hd', Ne.symm hd']
          vmMade := fun v d => by simp [h.vmMade]
          vmDestroyed := fun v => by simp [h.vmDestroyed] }

theorem newVm (h : Ledger n tr) (hv : n.vmAt o = none) (allocs : VmAllocs) :
    Kept tr (newVm o allocs n) := by
  unfold Randomx.newVm
  split
  · exact of_none h
  · next d ho =>
      split
      · have hnew : ∀ d', .createVm n.vms.length d' ∉ tr := fun d' hmem => by
          have hlt := (List.getElem?_eq_some_iff.mp ((h.vmMade _ d').mp hmem)).1
          exact Nat.lt_irrefl _ hlt
        have hfilled : ∃ c, .initDataset d c ∈ tr := by
          obtain ⟨c, hc, -⟩ := h.filled d _ (List.getElem?_eq_getElem (h.held o d ho))
          exact ⟨c, hc⟩
        exact of_one (h.makeVm hv ho) (show Sound tr (.createVm n.vms.length d) from
          ⟨hnew, h.datasetLive.mpr ⟨o, ho⟩, hfilled⟩)
      · exact dropArc h hv

theorem destroyVm (h : Ledger n tr) (o : κ) : Kept tr (destroyVm o n) := by
  unfold Randomx.destroyVm
  split
  · next v hv =>
      refine of_one ?_ (show Sound tr (.destroyVm v) from h.vmLive.mpr ⟨o, hv⟩)
      exact
        { exact := h.exact, held := h.held, vmOn := h.vmOn
          vmHeld := fun p v hp => by
            rcases update_eq_some.mp hp with ⟨-, hnow⟩ | ⟨-, hold⟩
            · cases hnow
            · exact h.vmHeld p v hold
          vmOne := fun p p' v hp hp' => by
            rcases update_eq_some.mp hp with ⟨-, hnow⟩ | ⟨-, hold⟩
            · cases hnow
            rcases update_eq_some.mp hp' with ⟨-, hnow'⟩ | ⟨-, hold'⟩
            · cases hnow'
            exact h.vmOne p p' v hold hold'
          cacheMade := fun c => by simp [h.cacheMade]
          cacheReleased := fun c => by simp [h.cacheReleased]
          filled := h.filled_append _
          filledMade := fun d c hmem => h.filledMade d c (by simpa using hmem)
          datasetMade := fun d => by simp [h.datasetMade]
          datasetReleased := fun d => by simp [h.datasetReleased]
          vmMade := fun v d => by simp [h.vmMade]
          vmDestroyed := fun v' => by
            rw [List.mem_append, h.vmDestroyed]
            constructor
            · rintro (⟨hlt, hfree⟩ | hlast)
              · refine ⟨hlt, fun p hp => ?_⟩
                rcases update_eq_some.mp hp with ⟨-, hnow⟩ | ⟨-, hold⟩
                · cases hnow
                · exact hfree p hold
              · obtain rfl : v' = v := by simpa using hlast
                obtain ⟨d, hvm, -⟩ := h.vmHeld o v' hv
                refine ⟨(List.getElem?_eq_some_iff.mp hvm).1, fun p hp => ?_⟩
                rcases update_eq_some.mp hp with ⟨-, hnow⟩ | ⟨hpo, hold⟩
                · cases hnow
                · exact hpo (h.vmOne p o v' hold hv)
            · rintro ⟨hlt, hfree⟩
              by_cases hvv : v' = v
              · exact Or.inr (by simp [hvv])
              · refine Or.inl ⟨hlt, fun p hp => hfree p (update_eq_some.mpr (Or.inr ⟨?_, hp⟩))⟩
                rintro rfl
                rw [hv] at hp
                exact hvv (Option.some.inj hp).symm }
  · exact of_none h

theorem destroyVm_vmAt (n : Objects κ) (o : κ) : (Randomx.destroyVm o n).1.vmAt o = none := by
  unfold Randomx.destroyVm
  split
  · exact Function.update_self ..
  · assumption

theorem dropVm (h : Ledger n tr) (o : κ) : Kept tr (dropVm o n) :=
  (destroyVm h o).andThen fun h' => dropArc h' (destroyVm_vmAt n o)

theorem moveVm (h : Ledger n tr) (hne : o ≠ o') (ho' : n.arcs.holds o' = none) :
    Kept tr (moveVm o o' n) := by
  have hempty : n.vmAt o' = none := by
    cases hv : n.vmAt o' with
    | none => rfl
    | some v =>
        obtain ⟨d, -, hd⟩ := h.vmHeld o' v hv
        rw [ho'] at hd
        cases hd
  -- a slot after the move is the same slot before it, or the one it moved from
  have hslot : ∀ p v, Function.update (Function.update n.vmAt o none) o' (n.vmAt o) p = some v →
      p = o' ∧ n.vmAt o = some v ∨ p ≠ o' ∧ p ≠ o ∧ n.vmAt p = some v := by
    intro p v hp
    rcases update_eq_some.mp hp with ⟨rfl, hnow⟩ | ⟨hpo', hp⟩
    · exact Or.inl ⟨rfl, hnow⟩
    · rcases update_eq_some.mp hp with ⟨-, hnow⟩ | ⟨hpo, hold⟩
      · cases hnow
      · exact Or.inr ⟨hpo', hpo, hold⟩
  refine of_none
    { exact := h.exact.move hne ho', cacheMade := h.cacheMade
      cacheReleased := h.cacheReleased, filled := h.filled, filledMade := h.filledMade
      datasetMade := h.datasetMade, vmMade := h.vmMade, vmOn := h.vmOn
      held := fun p d hp => ?_, vmHeld := fun p v hp => ?_
      vmOne := fun p p' v hp hp' => ?_, datasetReleased := fun d => ?_
      vmDestroyed := fun v => ?_ }
  · by_cases hpo' : p = o'
    · subst hpo'
      rw [Counted.move_holds_self] at hp
      exact h.held o d hp
    · by_cases hpo : p = o
      · subst hpo
        rw [Counted.move_holds_source hne] at hp
        cases hp
      · rw [Counted.move_holds_of_ne hpo hpo'] at hp
        exact h.held p d hp
  · rcases hslot p v hp with ⟨rfl, hold⟩ | ⟨hpo', hpo, hold⟩
    · obtain ⟨d, hvm, hd⟩ := h.vmHeld o v hold
      exact ⟨d, hvm, by rw [Counted.move_holds_self, hd]⟩
    · obtain ⟨d, hvm, hd⟩ := h.vmHeld p v hold
      exact ⟨d, hvm, by rw [Counted.move_holds_of_ne hpo hpo', hd]⟩
  · rcases hslot p v hp with ⟨rfl, hold⟩ | ⟨-, hpo, hold⟩ <;>
      rcases hslot p' v hp' with ⟨rfl, hold'⟩ | ⟨-, hpo', hold'⟩
    · rfl
    · exact absurd (h.vmOne p' o v hold' hold) hpo'
    · exact absurd (h.vmOne p o v hold hold') hpo
    · exact h.vmOne p p' v hold hold'
  · rw [Counted.held_move ho', h.datasetReleased]
  · rw [h.vmDestroyed]
    refine and_congr_right fun _ => ⟨fun hfree p hp => ?_, fun hfree p hp => ?_⟩
    · rcases hslot p v hp with ⟨-, hold⟩ | ⟨-, -, hold⟩
      · exact hfree o hold
      · exact hfree p hold
    · by_cases hpo : p = o
      · subst hpo
        exact hfree o' (update_eq_some.mpr (Or.inl ⟨rfl, hp⟩))
      · have hpo' : p ≠ o' := by
          rintro rfl
          rw [hempty] at hp
          cases hp
        exact hfree p (update_eq_some.mpr (Or.inr ⟨hpo',
          update_eq_some.mpr (Or.inr ⟨hpo, hp⟩)⟩))

theorem dropVm_holds (n : Objects κ) (o : κ) :
    (Randomx.dropVm o n).1.arcs.holds o = none :=
  Counted.drop_holds_self

theorem replaceVm (h : Ledger n tr) (hne : o ≠ o') : Kept tr (replaceVm o o' n) :=
  (dropVm h o').andThen fun h' => moveVm h' hne (dropVm_holds n o')

end Kept

/-! ## What the owners hold -/

/-- What the dataset was made of that an owner holds. -/
def Objects.content (n : Objects κ) (o : κ) : Option Dataset :=
  (n.arcs.holds o).bind (n.datasets[·]?)

theorem Ledger.content_eq_none (h : Ledger n tr) : n.content o = none ↔ n.arcs.holds o = none := by
  rw [Objects.content, Option.bind_eq_none_iff]
  constructor
  · intro hnone
    cases ho : n.arcs.holds o with
    | none => rfl
    | some d =>
        have hout := List.getElem?_eq_none_iff.mp (hnone d ho)
        exact absurd (h.held o d ho) (Nat.not_lt.mpr hout)
  · intro hnone d hd
    rw [hnone] at hd
    cases hd

theorem content_congr {n n' : Objects κ} {p q : κ} (hd : n'.datasets = n.datasets)
    (hp : n'.arcs.holds p = n.arcs.holds q) : n'.content p = n.content q := by
  rw [Objects.content, Objects.content, hd, hp]

/-- The datasets in use are those there were, whatever else is made. -/
theorem Ledger.getElem?_snoc (h : Ledger n tr) (x : Dataset) :
    (n.arcs.holds o).bind ((n.datasets ++ [x])[·]?) = n.content o := by
  unfold Objects.content
  cases ho : n.arcs.holds o with
  | none => rfl
  | some d => exact List.getElem?_append_left (h.held o d ho)

variable [DecidableEq κ]

theorem content_newForAlgo (h : Ledger n tr) (ho : n.arcs.holds o = none) (algo : String)
    (seed : Bytes) (allocs : DatasetAllocs) :
    (newForAlgo o algo seed allocs n).1.content =
      Function.update n.content o (Dataset.newForAlgo algo seed allocs.available) := by
  have hsame : n.content = Function.update n.content o none := by
    rw [eq_comm, Function.update_eq_self_iff, h.content_eq_none.mpr ho]
  have hnone : Dataset.newForAlgo algo seed allocs.available = none →
      n.content = Function.update n.content o
        (Dataset.newForAlgo algo seed allocs.available) := fun hfail => by rw [hfail, ← hsame]
  unfold Randomx.newForAlgo
  split
  · next hheader =>
      exact hnone (by simp [Dataset.newForAlgo, DatasetAllocs.available, hheader])
  split
  · next halgo => exact hnone (by simp [Dataset.newForAlgo, halgo])
  split
  · next hseed => exact hnone (by simp [Dataset.newForAlgo, hseed])
  split
  · next hcache =>
      exact hnone (by simp [Dataset.newForAlgo, DatasetAllocs.available, hcache])
  split
  · next hdataset =>
      exact hnone (by simp [Dataset.newForAlgo, DatasetAllocs.available, hdataset])
  · next hheader halgo hseed hcache hdataset =>
      have hbuilt : Dataset.newForAlgo algo seed allocs.available = some { algo, seed } := by
        simp [Dataset.newForAlgo, DatasetAllocs.available, hheader, halgo, hseed, hcache,
          hdataset]
      rw [hbuilt]
      funext p
      by_cases hp : p = o
      · subst hp
        simp [Objects.content]
      · rw [Function.update_of_ne hp, ← h.getElem?_snoc { algo, seed }]
        simp [Objects.content, hp]

theorem vmAt_newForAlgo {algo : String} {seed : Bytes} {allocs : DatasetAllocs} :
    (newForAlgo o algo seed allocs n).1.vmAt = n.vmAt := by
  unfold newForAlgo
  repeat' split
  all_goals rfl

theorem content_cloneArc (ho' : n.arcs.holds o' = none) :
    (cloneArc o o' n).1.content = Function.update n.content o' (n.content o) := by
  funext p
  by_cases hp : p = o'
  · subst hp
    rw [Function.update_self]
    exact content_congr rfl (Counted.clone_holds_self ho')
  · rw [Function.update_of_ne hp]
    exact content_congr rfl (Counted.clone_holds_of_ne hp)

theorem content_dropArc : (dropArc o n).1.content = Function.update n.content o none := by
  funext p
  by_cases hp : p = o
  · subst hp
    rw [Function.update_self, Objects.content]
    exact Option.bind_eq_none_iff.mpr fun d hd => by
      rw [show (dropArc p n).1.arcs.holds p = none from Counted.drop_holds_self] at hd
      cases hd
  · rw [Function.update_of_ne hp]
    exact content_congr rfl (Counted.drop_holds_of_ne hp)

theorem content_moveVm (hne : o ≠ o') :
    (moveVm o o' n).1.content =
      Function.update (Function.update n.content o none) o' (n.content o) := by
  funext p
  by_cases hp' : p = o'
  · subst hp'
    rw [Function.update_self]
    exact content_congr rfl Counted.move_holds_self
  · rw [Function.update_of_ne hp']
    by_cases hp : p = o
    · subst hp
      rw [Function.update_self, Objects.content,
        show (moveVm p o' n).1.arcs.holds p = none from Counted.move_holds_source hne]
      rfl
    · rw [Function.update_of_ne hp]
      exact content_congr rfl (Counted.move_holds_of_ne hp hp')

theorem content_dropVm : (dropVm o n).1.content = Function.update n.content o none := by
  have hsame : (destroyVm o n).1.content = n.content := by
    unfold destroyVm
    split <;> rfl
  rw [← hsame]
  exact content_dropArc

theorem vmAt_dropVm : (dropVm o n).1.vmAt = Function.update n.vmAt o none := by
  change (destroyVm o n).1.vmAt = _
  unfold destroyVm
  split
  · rfl
  · next hv => rw [eq_comm, Function.update_eq_self_iff, hv]

theorem content_replaceVm (hne : o ≠ o') :
    (replaceVm o o' n).1.content =
      Function.update (Function.update n.content o none) o' (n.content o) := by
  change (moveVm o o' (dropVm o' n).1).1.content = _
  rw [content_moveVm hne, content_dropVm, Function.update_of_ne hne, Function.update_comm hne,
    Function.update_idem, Function.update_comm hne.symm]

theorem vmAt_replaceVm (hne : o ≠ o') :
    (replaceVm o o' n).1.vmAt =
      Function.update (Function.update n.vmAt o none) o' (n.vmAt o) := by
  change Function.update (Function.update (dropVm o' n).1.vmAt o none) o'
    ((dropVm o' n).1.vmAt o) = _
  rw [vmAt_dropVm, Function.update_of_ne hne, Function.update_comm hne,
    Function.update_idem, Function.update_comm hne.symm]

/-- A VM is made of the dataset that the owner holds. -/
theorem newVm_of_some {dataset : Dataset} {vm : Vm} {allocs : VmAllocs}
    (ho : n.content o = some dataset) (hvm : Vm.new dataset allocs.available = some vm) :
    (newVm o allocs n).1.content = n.content ∧
      ∃ v, (newVm o allocs n).1.vmAt = Function.update n.vmAt o (some v) := by
  obtain ⟨d, hd, hdataset⟩ := Option.bind_eq_some_iff.mp ho
  have hnew : ((n.datasets[d]?).bind fun dataset => Vm.new dataset allocs.available)
      = some vm := by
    rw [hdataset]
    exact hvm
  unfold newVm
  simp only [hd, hnew]
  exact ⟨rfl, _, rfl⟩

theorem newVm_of_none {dataset : Dataset} {allocs : VmAllocs} (ho : n.content o = some dataset)
    (hvm : Vm.new dataset allocs.available = none) : newVm o allocs n = dropArc o n := by
  obtain ⟨d, hd, hdataset⟩ := Option.bind_eq_some_iff.mp ho
  have hnew : ((n.datasets[d]?).bind fun dataset => Vm.new dataset allocs.available)
      = none := by
    rw [hdataset]
    exact hvm
  unfold newVm
  simp only [hd, hnew]

end

end LiteXmr.Randomx
