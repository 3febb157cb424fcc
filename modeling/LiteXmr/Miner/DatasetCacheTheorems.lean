/-
LiteXmr.Miner.DatasetCacheTheorems — a dataset the cache hands out was built
for the key it was asked for.

`CacheMoves` lists what a step of the cache can be; the invariants are case
analyses of it. `CacheSound` says where the datasets in the cache come
from: each is the result of a build in the trace, and it is held under the
key of that build (`cacheSound_of_run`).

The key is the text `algo:seed`. On names without a colon it determines
both parts (`cacheKey_injective`), so a caller with a supported algorithm
gets a dataset built with exactly its own algorithm and seed bytes
(`CacheSound.returned_built`), whichever thread built it and whatever other
keys overwrote the state in between.
-/
import LiteXmr.Algorithms
import LiteXmr.Miner.DatasetCache

namespace LiteXmr

open Lts

/-! ## Callers -/

/-- The arguments of the call a thread is in. -/
def Caller.request : Caller → Option Request
  | .idle => none
  | .locking req | .waiting req | .building req => some req
  | .storing req _ | .returned req _ => some req

@[simp] theorem Caller.request_notify (caller : Caller) :
    caller.notify.request = caller.request := by
  cases caller <;> rfl

theorem Caller.notify_eq_storing {caller : Caller} {req : Request} {d : Option Dataset} :
    caller.notify = .storing req d ↔ caller = .storing req d := by
  cases caller <;> simp [Caller.notify]

theorem Caller.notify_eq_returned {caller : Caller} {req : Request} {d : Option Dataset} :
    caller.notify = .returned req d ↔ caller = .returned req d := by
  cases caller <;> simp [Caller.notify]

namespace RxDatasetCache

variable {cache : RxDatasetCache} {w v : Nat} {caller : Caller}

@[simp] theorem setCaller_state : (cache.setCaller w caller).state = cache.state := rfl

@[simp] theorem setCaller_self : (cache.setCaller w caller).callers w = caller := by
  simp [setCaller]

@[simp] theorem setCaller_of_ne (h : v ≠ w) :
    (cache.setCaller w caller).callers v = cache.callers v := by
  simp [setCaller, h]

end RxDatasetCache

theorem Dataset.newForAlgo_eq_some {algo : String} {seed : Bytes} {available : Bool}
    {dataset : Dataset} (h : newForAlgo algo seed available = some dataset) :
    dataset = { algo, seed } := by
  unfold newForAlgo at h
  split at h
  · cases h
  · split at h
    · cases h
    · split at h
      · exact (Option.some.inj h).symm
      · cases h

/-! ## What a step can be -/

inductive CacheMoves (cache : RxDatasetCache) :
    CacheInput → RxDatasetCache → List CacheObs → Prop where
  | call {w : Nat} {req : Request} (hc : cache.callers w = .idle) :
      CacheMoves cache (.call w req) (cache.setCaller w (.locking req)) []
  | hit {w : Nat} {req : Request} {dataset : Dataset} (hc : cache.callers w = .locking req)
      (hs : cache.state = .ready req.cacheKey dataset) :
      CacheMoves cache (.lock w) (cache.setCaller w (.returned req (some dataset))) []
  | miss {w : Nat} {req : Request} (hc : cache.callers w = .locking req)
      (hs : cache.state = .failed req.cacheKey) :
      CacheMoves cache (.lock w) (cache.setCaller w (.returned req none)) []
  | wait {w : Nat} {req : Request} (hc : cache.callers w = .locking req)
      (hs : cache.state = .building req.cacheKey) :
      CacheMoves cache (.lock w) (cache.setCaller w (.waiting req)) []
  | claim {w : Nat} {req : Request} (hc : cache.callers w = .locking req)
      (hs : cache.state.look req.cacheKey = .claim) :
      CacheMoves cache (.lock w)
        { cache.setCaller w (.building req) with state := .building req.cacheKey }
        [.building w req]
  | wake {w : Nat} {req : Request} (hc : cache.callers w = .waiting req) :
      CacheMoves cache (.wake w) (cache.setCaller w (.locking req)) []
  | built {w : Nat} {available : Bool} {req : Request} {dataset : Option Dataset}
      (hc : cache.callers w = .building req)
      (hd : dataset = Dataset.newForAlgo req.algo req.seedBytes available) :
      CacheMoves cache (.built w available) (cache.setCaller w (.storing req dataset))
        [.built w req dataset]
  | store {w : Nat} {req : Request} {dataset : Option Dataset}
      (hc : cache.callers w = .storing req dataset) :
      CacheMoves cache (.store w)
        { state := .ofBuilt req.cacheKey dataset
          callers := Function.update (fun v => (cache.callers v).notify) w
            (.returned req dataset) } []
  | ret {w : Nat} {req : Request} {dataset : Option Dataset}
      (hc : cache.callers w = .returned req dataset) :
      CacheMoves cache (.ret w) (cache.setCaller w .idle) [.returned w req dataset]

theorem cacheMoves_of_step {cache cache' : RxDatasetCache} {i : CacheInput}
    {os : List CacheObs} (h : cacheStep cache i = some (cache', os)) :
    CacheMoves cache i cache' os := by
  cases i with
  | call w req =>
      simp only [cacheStep] at h
      split at h
      · next hc =>
          cases h
          exact .call hc
      · cases h
  | lock w =>
      simp only [cacheStep] at h
      split at h
      · next req hc =>
          cases hs : cache.state with
          | empty =>
              simp only [hs, DatasetState.look] at h
              cases h
              exact .claim hc (by simp [hs, DatasetState.look])
          | building seed =>
              simp only [hs, DatasetState.look] at h
              by_cases hk : seed = req.cacheKey
              · simp only [if_pos hk] at h
                cases h
                exact .wait hc (hk ▸ hs)
              · simp only [if_neg hk] at h
                cases h
                exact .claim hc (by simp [hs, DatasetState.look, hk])
          | ready seed dataset =>
              simp only [hs, DatasetState.look] at h
              by_cases hk : seed = req.cacheKey
              · simp only [if_pos hk] at h
                cases h
                exact .hit hc (hk ▸ hs)
              · simp only [if_neg hk] at h
                cases h
                exact .claim hc (by simp [hs, DatasetState.look, hk])
          | failed seed =>
              simp only [hs, DatasetState.look] at h
              by_cases hk : seed = req.cacheKey
              · simp only [if_pos hk] at h
                cases h
                exact .miss hc (hk ▸ hs)
              · simp only [if_neg hk] at h
                cases h
                exact .claim hc (by simp [hs, DatasetState.look, hk])
      · cases h
  | wake w =>
      simp only [cacheStep] at h
      split at h
      · next hc =>
          cases h
          exact .wake hc
      · cases h
  | built w available =>
      simp only [cacheStep] at h
      split at h
      · next hc =>
          cases h
          exact .built hc rfl
      · cases h
  | store w =>
      simp only [cacheStep] at h
      split at h
      · next hc =>
          cases h
          exact .store hc
      · cases h
  | ret w =>
      simp only [cacheStep] at h
      split at h
      · next hc =>
          cases h
          exact .ret hc
      · cases h

theorem cacheStep_call {cache cache' : RxDatasetCache} {w : Nat} {req : Request}
    {os : List CacheObs} (h : cacheStep cache (.call w req) = some (cache', os)) :
    cache' = cache.setCaller w (.locking req) ∧ os = [] := by
  cases cacheMoves_of_step h with
  | call hc => exact ⟨rfl, rfl⟩

theorem cacheStep_ret {cache cache' : RxDatasetCache} {w : Nat} {req : Request}
    {dataset : Option Dataset} {os : List CacheObs}
    (hc : cache.callers w = .returned req dataset)
    (h : cacheStep cache (.ret w) = some (cache', os)) :
    cache' = cache.setCaller w .idle ∧ os = [.returned w req dataset] := by
  cases cacheMoves_of_step h with
  | ret hc' =>
      rw [hc] at hc'
      cases hc'
      exact ⟨rfl, rfl⟩

/-- Inside the cache a thread keeps the arguments of its call. -/
theorem cacheStep_request {cache cache' : RxDatasetCache} {i : CacheInput}
    {os : List CacheObs} (h : cacheStep cache i = some (cache', os))
    (hcall : ∀ w req, i ≠ .call w req) (hret : ∀ w, i ≠ .ret w) (v : Nat) :
    (cache'.callers v).request = (cache.callers v).request := by
  have hset : ∀ {w : Nat} {caller : Caller}, caller.request = (cache.callers w).request →
      ((cache.setCaller w caller).callers v).request = (cache.callers v).request := by
    intro w caller heq
    by_cases hv : v = w
    · subst hv
      rw [RxDatasetCache.setCaller_self, heq]
    · rw [RxDatasetCache.setCaller_of_ne hv]
  cases cacheMoves_of_step h with
  | @call w req _ => exact absurd rfl (hcall w req)
  | hit hc _ => exact hset (by rw [hc]; rfl)
  | miss hc _ => exact hset (by rw [hc]; rfl)
  | wait hc _ => exact hset (by rw [hc]; rfl)
  | claim hc _ => exact hset (by rw [hc]; rfl)
  | wake hc => exact hset (by rw [hc]; rfl)
  | built hc _ => exact hset (by rw [hc]; rfl)
  | @store w req dataset hc =>
      by_cases hv : v = w
      · subst hv
        simp [hc, Caller.request]
      · simp [hv]
  | @ret w _ _ _ => exact absurd rfl (hret w)

/-! ## Where the datasets come from -/

/-- The requests in the cache and in its trace satisfy `P`, and each dataset
in the cache was built for the key it is held under. -/
structure CacheSound (P : Request → Prop) (cache : RxDatasetCache) (tr : List CacheObs) :
    Prop where
  requests : ∀ w req, (cache.callers w).request = some req → P req
  built : ∀ w req dataset, CacheObs.built w req (some dataset) ∈ tr →
    P req ∧ dataset = { algo := req.algo, seed := req.seedBytes }
  storing : ∀ w req dataset, cache.callers w = .storing req (some dataset) →
    .built w req (some dataset) ∈ tr
  ready : ∀ key dataset, cache.state = .ready key dataset →
    ∃ w req, CacheObs.built w req (some dataset) ∈ tr ∧ req.cacheKey = key
  returned : ∀ w req dataset, cache.callers w = .returned req (some dataset) →
    ∃ v req', CacheObs.built v req' (some dataset) ∈ tr ∧ req'.cacheKey = req.cacheKey
  handed : ∀ w req dataset, CacheObs.returned w req (some dataset) ∈ tr →
    P req ∧ ∃ v req', CacheObs.built v req' (some dataset) ∈ tr ∧
      req'.cacheKey = req.cacheKey

variable {P : Request → Prop} {cache cache' : RxDatasetCache} {tr os : List CacheObs}

theorem cacheSound_new (P : Request → Prop) : CacheSound P .new [] where
  requests := by simp [RxDatasetCache.new, Caller.request]
  built := by simp
  storing := by simp [RxDatasetCache.new]
  ready := by simp [RxDatasetCache.new]
  returned := by simp [RxDatasetCache.new]
  handed := by simp

/-- A step that only moves thread `w`, to a place that holds no dataset the
cache did not hold before. -/
theorem CacheSound.setCaller {w : Nat} {caller : Caller} (h : CacheSound P cache tr)
    (hreq : ∀ req, caller.request = some req → P req)
    (hstoring : ∀ req dataset, caller = .storing req (some dataset) →
      .built w req (some dataset) ∈ tr)
    (hreturned : ∀ req dataset, caller = .returned req (some dataset) →
      ∃ v req', CacheObs.built v req' (some dataset) ∈ tr ∧ req'.cacheKey = req.cacheKey) :
    CacheSound P (cache.setCaller w caller) tr where
  built := h.built
  ready := h.ready
  handed := h.handed
  requests := by
    intro v req hv
    by_cases hvw : v = w
    · subst hvw
      exact hreq req (by simpa using hv)
    · exact h.requests v req (by simpa [hvw] using hv)
  storing := by
    intro v req dataset hv
    by_cases hvw : v = w
    · subst hvw
      exact hstoring req dataset (by simpa using hv)
    · exact h.storing v req dataset (by simpa [hvw] using hv)
  returned := by
    intro v req dataset hv
    by_cases hvw : v = w
    · subst hvw
      exact hreturned req dataset (by simpa using hv)
    · exact h.returned v req dataset (by simpa [hvw] using hv)

/-- A longer trace, when the builds and the results new in it are sound. -/
theorem CacheSound.extend (h : CacheSound P cache tr)
    (hos : ∀ w req dataset, CacheObs.built w req (some dataset) ∈ os →
      P req ∧ dataset = { algo := req.algo, seed := req.seedBytes })
    (hret : ∀ w req dataset, CacheObs.returned w req (some dataset) ∈ os →
      P req ∧ ∃ v req', CacheObs.built v req' (some dataset) ∈ tr ∧
        req'.cacheKey = req.cacheKey) :
    CacheSound P cache (tr ++ os) where
  handed := by
    intro w req dataset hmem
    have hboth : P req ∧ ∃ v req', CacheObs.built v req' (some dataset) ∈ tr ∧
        req'.cacheKey = req.cacheKey := by
      rcases List.mem_append.mp hmem with hm | hm
      · exact h.handed w req dataset hm
      · exact hret w req dataset hm
    obtain ⟨hP, v, req', hbuilt, hkey⟩ := hboth
    exact ⟨hP, v, req', List.mem_append_left _ hbuilt, hkey⟩
  requests := h.requests
  built := by
    intro w req dataset hmem
    rcases List.mem_append.mp hmem with hm | hm
    · exact h.built w req dataset hm
    · exact hos w req dataset hm
  storing := fun w req dataset hc => List.mem_append_left _ (h.storing w req dataset hc)
  ready := by
    intro key dataset hs
    obtain ⟨w, req, hmem, hkey⟩ := h.ready key dataset hs
    exact ⟨w, req, List.mem_append_left _ hmem, hkey⟩
  returned := by
    intro w req dataset hc
    obtain ⟨v, req', hmem, hkey⟩ := h.returned w req dataset hc
    exact ⟨v, req', List.mem_append_left _ hmem, hkey⟩

theorem cacheSound_step {i : CacheInput} (h : CacheSound P cache tr)
    (hok : ∀ w req, i = .call w req → P req)
    (hs : cacheStep cache i = some (cache', os)) : CacheSound P cache' (tr ++ os) := by
  cases cacheMoves_of_step hs with
  | @call w req hc =>
      rw [List.append_nil]
      refine h.setCaller ?_ (by simp) (by simp)
      intro req' hreq
      obtain rfl : req = req' := by simpa [Caller.request] using hreq
      exact hok w req rfl
  | @hit w req dataset hc hstate =>
      rw [List.append_nil]
      refine h.setCaller ?_ (by simp) ?_
      · intro req' hreq
        exact h.requests w req' (by simpa [hc, Caller.request] using hreq)
      · intro req' dataset' heq
        obtain ⟨rfl, rfl⟩ : req = req' ∧ dataset = dataset' := by simpa using heq
        exact h.ready _ _ hstate
  | @miss w req hc _ =>
      rw [List.append_nil]
      refine h.setCaller ?_ (by simp) (by simp)
      exact fun req' hreq => h.requests w req' (by simpa [hc, Caller.request] using hreq)
  | @wait w req hc _ =>
      rw [List.append_nil]
      refine h.setCaller ?_ (by simp) (by simp)
      exact fun req' hreq => h.requests w req' (by simpa [hc, Caller.request] using hreq)
  | @claim w req hc _ =>
      have hmoved : CacheSound P (cache.setCaller w (.building req)) tr := by
        refine h.setCaller ?_ (by simp) (by simp)
        exact fun req' hreq => h.requests w req' (by simpa [hc, Caller.request] using hreq)
      have hext : CacheSound P (cache.setCaller w (.building req)) (tr ++ [.building w req]) :=
        hmoved.extend (by simp) (by simp)
      exact { hext with ready := by simp }
  | @wake w req hc =>
      rw [List.append_nil]
      refine h.setCaller ?_ (by simp) (by simp)
      exact fun req' hreq => h.requests w req' (by simpa [hc, Caller.request] using hreq)
  | @built w available req dataset hc hd =>
      have hP : P req := h.requests w req (by simp [hc, Caller.request])
      have hext : CacheSound P cache (tr ++ [.built w req dataset]) := by
        refine h.extend (fun w' req' dataset' hmem => ?_) (by simp)
        obtain ⟨_, rfl, rfl⟩ : w' = w ∧ req' = req ∧ some dataset' = dataset := by
          simpa using hmem
        exact ⟨hP, Dataset.newForAlgo_eq_some hd.symm⟩
      refine hext.setCaller ?_ ?_ (by simp)
      · exact fun req' hreq => h.requests w req' (by simpa [hc, Caller.request] using hreq)
      · intro req' dataset' heq
        obtain ⟨rfl, rfl⟩ : req = req' ∧ dataset = some dataset' := by simpa using heq
        simp
  | @store w req dataset hc =>
      rw [List.append_nil]
      have hbuilt : ∀ d, dataset = some d → CacheObs.built w req (some d) ∈ tr := by
        rintro d rfl
        exact h.storing w req d hc
      refine ⟨?_, h.built, ?_, ?_, ?_, h.handed⟩
      · intro v req' hv
        by_cases hvw : v = w
        · subst hvw
          exact h.requests v req' (by simpa [hc, Caller.request] using hv)
        · exact h.requests v req' (by simpa [hvw] using hv)
      · intro v req' d hv
        by_cases hvw : v = w
        · subst hvw
          simp at hv
        · exact h.storing v req' d (by simpa [hvw, Caller.notify_eq_storing] using hv)
      · intro key d hstate
        cases dataset with
        | none => simp [DatasetState.ofBuilt] at hstate
        | some d' =>
            obtain ⟨rfl, rfl⟩ : req.cacheKey = key ∧ d' = d := by
              simpa [DatasetState.ofBuilt] using hstate
            exact ⟨w, req, hbuilt _ rfl, rfl⟩
      · intro v req' d hv
        by_cases hvw : v = w
        · subst hvw
          obtain ⟨rfl, rfl⟩ : req = req' ∧ dataset = some d := by simpa using hv
          exact ⟨v, req, hbuilt _ rfl, rfl⟩
        · exact h.returned v req' d (by simpa [hvw, Caller.notify_eq_returned] using hv)
  | @ret w req dataset hc =>
      have hmoved : CacheSound P (cache.setCaller w .idle) tr :=
        h.setCaller (by simp [Caller.request]) (by simp) (by simp)
      refine hmoved.extend (by simp) fun w' req' dataset' hmem => ?_
      obtain ⟨_, rfl, rfl⟩ : w' = w ∧ req' = req ∧ some dataset' = dataset := by
        simpa using hmem
      exact ⟨h.requests w req' (by simp [hc, Caller.request]),
        h.returned w req' dataset' hc⟩

theorem cacheSound_of_run {is : List CacheInput}
    (h : Run cacheStep (fun _ i => ∀ w req, i = .call w req → P req) .new is cache tr) :
    CacheSound P cache tr :=
  h.invariant (cacheSound_new P) fun hc hok hs => cacheSound_step hc hok hs

/-! ## The key -/

/-- The arguments the workers use: a supported algorithm, and seed bytes that
`f` derives from the seed text. -/
def Request.WellFormed (f : String → Bytes) (req : Request) : Prop :=
  Algorithms.isSupported req.algo = true ∧ req.seedBytes = f req.seed

/-- The first colon of a key is the one between its parts. -/
theorem append_colon_injective {a a' b b' : List Char} (ha : ':' ∉ a) (ha' : ':' ∉ a')
    (h : a ++ ':' :: b = a' ++ ':' :: b') : a = a' ∧ b = b' := by
  induction a generalizing a' with
  | nil =>
      cases a' with
      | nil => exact ⟨rfl, (List.cons.inj h).2⟩
      | cons c a' => exact absurd (List.cons.inj h).1 (fun hc => ha' (by simp [← hc]))
  | cons c a ih =>
      cases a' with
      | nil => exact absurd (List.cons.inj h).1 (fun hc => ha (by simp [hc]))
      | cons c' a' =>
          simp only [List.cons_append, List.cons.injEq] at h
          simp only [List.mem_cons, not_or] at ha ha'
          obtain ⟨rfl, rfl⟩ := ih ha.2 ha'.2 h.2
          exact ⟨by rw [h.1], rfl⟩

theorem cacheKey_injective {f : String → Bytes} {req req' : Request}
    (h : req.WellFormed f) (h' : req'.WellFormed f) (hkey : req.cacheKey = req'.cacheKey) :
    req = req' := by
  have hchars := congrArg String.toList hkey
  simp only [Request.cacheKey, String.toList_append, List.append_assoc] at hchars
  obtain ⟨halgo, hseed⟩ := append_colon_injective
    (Algorithms.colon_not_mem_of_isSupported h.1)
    (Algorithms.colon_not_mem_of_isSupported h'.1) hchars
  obtain ⟨algo, seed, seedBytes⟩ := req
  obtain ⟨algo', seed', seedBytes'⟩ := req'
  obtain rfl : algo = algo' := String.toList_inj.mp halgo
  obtain rfl : seed = seed' := String.toList_inj.mp hseed
  rw [Request.mk.injEq]
  exact ⟨rfl, rfl, h.2.trans h'.2.symm⟩

/-- A call that returns a dataset returns one that was built, by some thread,
for the very arguments of the call. -/
theorem CacheSound.returned_built {f : String → Bytes} {w : Nat} {req : Request}
    {dataset : Dataset} (h : CacheSound (Request.WellFormed f) cache tr)
    (hret : .returned w req (some dataset) ∈ tr) :
    dataset = { algo := req.algo, seed := req.seedBytes } ∧
      ∃ v, CacheObs.built v req (some dataset) ∈ tr := by
  obtain ⟨hreq, v, req', hmem, hkey⟩ := h.handed w req dataset hret
  obtain ⟨hwf, hdataset⟩ := h.built v req' dataset hmem
  obtain rfl := cacheKey_injective hwf hreq hkey
  exact ⟨hdataset, v, hmem⟩

end LiteXmr
