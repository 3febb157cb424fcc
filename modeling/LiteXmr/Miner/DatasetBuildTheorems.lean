/-
LiteXmr.Miner.DatasetBuildTheorems — the builds in progress in the dataset
cache, and the threads that wait for them.

The state is one slot. A thread that finds nothing about its key there
becomes its builder, and what the slot held is forgotten, a `Building` mark
of another key included.

* `single_flight_iff` — two builds of one key never run at the same time
  exactly when no thread asks for a key whose build is running after the
  slot has forgotten it (`Reclaims`). With one key in all the calls nobody does
  (`never_reclaims_of_one_key`); `two_builds_of_one_key` runs into it with three
  threads and two keys.
* `no_lost_wakeup` — forgetting costs no wake-up: whatever keys overwrote the
  slot, a waiting thread always has a builder of its own key that has not
  notified yet, and the two steps that builder has left free every waiting
  thread.
-/
import LiteXmr.Miner.DatasetCacheTheorems

namespace LiteXmr

open Lts

/-! ## Builders -/

/-- What a thread builds, from the claim to the notification. -/
def Caller.builds : Caller → Option Request
  | .building req | .storing req _ => some req
  | _ => none

@[simp] theorem Caller.builds_notify (caller : Caller) :
    caller.notify.builds = caller.builds := by
  cases caller <;> rfl

theorem RxDatasetCache.builds_setCaller {cache : RxDatasetCache} {w : Nat} {caller : Caller}
    (hb : caller.builds = (cache.callers w).builds) (v : Nat) :
    ((cache.setCaller w caller).callers v).builds = (cache.callers v).builds := by
  by_cases hv : v = w
  · rw [hv, setCaller_self, hb]
  · rw [setCaller_of_ne hv]

theorem Caller.notify_eq_building {caller : Caller} {req : Request} :
    caller.notify = .building req ↔ caller = .building req := by
  cases caller <;> simp [Caller.notify]

theorem Caller.notify_ne_waiting (caller : Caller) (req : Request) :
    caller.notify ≠ .waiting req := by
  cases caller <;> simp [Caller.notify]

/-! ## One build of a key at a time -/

/-- No two threads run a build of the same key. -/
def SingleFlight (cache : RxDatasetCache) : Prop :=
  ∀ v v' req req', cache.callers v = .building req → cache.callers v' = .building req' →
    req.cacheKey = req'.cacheKey → v = v'

/-- A thread at the lock asks for a key whose build is running, and the slot
holds nothing about that key. -/
def Reclaims (cache : RxDatasetCache) : CacheInput → Prop
  | .lock w =>
      ∃ req v req', cache.callers w = .locking req ∧
        cache.state.look req.cacheKey = .claim ∧
        cache.callers v = .building req' ∧ req'.cacheKey = req.cacheKey
  | _ => False

section SingleFlight

variable {cache cache' : RxDatasetCache} {i : CacheInput} {os : List CacheObs}

theorem singleFlight_new : SingleFlight .new := by
  intro v v' req req' hv
  simp [RxDatasetCache.new] at hv

/-- With no new builder there is still one build of a key at most. -/
theorem SingleFlight.of_builders (h : SingleFlight cache)
    (hb : ∀ v req, cache'.callers v = .building req → cache.callers v = .building req) :
    SingleFlight cache' :=
  fun v v' req req' hv hv' hkey => h v v' req req' (hb v req hv) (hb v' req' hv') hkey

theorem SingleFlight.setCaller (h : SingleFlight cache) {w : Nat} {caller : Caller}
    (hc : ∀ req, caller ≠ .building req) : SingleFlight (cache.setCaller w caller) := by
  refine h.of_builders fun v req hv => ?_
  by_cases hvw : v = w
  · subst hvw
    rw [RxDatasetCache.setCaller_self] at hv
    exact absurd hv (hc req)
  · rwa [RxDatasetCache.setCaller_of_ne hvw] at hv

/-- A thread that finds something about its key claims nothing. -/
theorem not_reclaims_of_look {w : Nat} {req : Request} (hc : cache.callers w = .locking req)
    (hl : cache.state.look req.cacheKey ≠ .claim) : ¬ Reclaims cache (.lock w) := by
  rintro ⟨req', v, req'', hreq, hlook, _⟩
  rw [hc] at hreq
  cases hreq
  exact hl hlook

/-- Only a claim can start the second build of a key. -/
theorem singleFlight_step (h : SingleFlight cache)
    (hs : cacheStep cache i = some (cache', os)) : SingleFlight cache' ↔ ¬ Reclaims cache i := by
  cases cacheMoves_of_step hs with
  | call _ => exact iff_of_true (h.setCaller (by simp)) id
  | hit hc hstate =>
      refine iff_of_true (h.setCaller (by simp)) (not_reclaims_of_look hc ?_)
      simp [hstate, DatasetState.look]
  | miss hc hstate =>
      refine iff_of_true (h.setCaller (by simp)) (not_reclaims_of_look hc ?_)
      simp [hstate, DatasetState.look]
  | wait hc hstate =>
      refine iff_of_true (h.setCaller (by simp)) (not_reclaims_of_look hc ?_)
      simp [hstate, DatasetState.look]
  | @claim w req hc hlook =>
      constructor
      · rintro hafter ⟨req₀, v, req', hreq, _, hv, hkey⟩
        rw [hc] at hreq
        cases hreq
        have hvw : v ≠ w := by
          rintro rfl
          rw [hc] at hv
          cases hv
        have hnew : (cache.setCaller w (.building req)).callers w = .building req := by simp
        have hold : (cache.setCaller w (.building req)).callers v = .building req' := by
          rw [RxDatasetCache.setCaller_of_ne hvw, hv]
        exact hvw (hafter v w req' req hold hnew hkey)
      · intro hgood v v' req₁ req₂ hv hv' hkey
        have hfree : ∀ {u req'}, u ≠ w →
            (cache.setCaller w (.building req)).callers u = .building req' →
              req'.cacheKey ≠ req.cacheKey := by
          intro u req' hu hcu heq
          rw [RxDatasetCache.setCaller_of_ne hu] at hcu
          exact hgood ⟨req, u, req', hc, hlook, hcu, heq⟩
        have hself : ∀ {req'}, (cache.setCaller w (.building req)).callers w = .building req' →
            req = req' := by
          intro req' hcu
          simpa using hcu
        by_cases hvw : v = w
        · by_cases hvw' : v' = w
          · rw [hvw, hvw']
          · subst hvw
            obtain rfl := hself hv
            exact absurd hkey.symm (hfree hvw' hv')
        · by_cases hvw' : v' = w
          · subst hvw'
            obtain rfl := hself hv'
            exact absurd hkey (hfree hvw hv)
          · refine h v v' req₁ req₂ ?_ ?_ hkey
            · rwa [← RxDatasetCache.setCaller_of_ne hvw]
            · rwa [← RxDatasetCache.setCaller_of_ne hvw']
  | wake _ => exact iff_of_true (h.setCaller (by simp)) id
  | built _ _ => exact iff_of_true (h.setCaller (by simp)) id
  | @store w req dataset _ =>
      refine iff_of_true (h.of_builders fun v req' hv => ?_) id
      by_cases hvw : v = w
      · subst hvw
        simp at hv
      · simpa [hvw, Caller.notify_eq_building] using hv
  | ret _ => exact iff_of_true (h.setCaller (by simp)) id

end SingleFlight

/-- At no point of a run are two builds of one key in progress exactly when
no thread of it reclaims a key that the slot has forgotten. -/
theorem single_flight_iff {is : List CacheInput} {cache : RxDatasetCache}
    {tr : List CacheObs} (h : Run cacheStep (fun _ _ => True) .new is cache tr) :
    (∀ js t tr', js <+: is → Run cacheStep (fun _ _ => True) .new js t tr' →
        SingleFlight t) ↔
      Run cacheStep (fun cache i => ¬ Reclaims cache i) .new is cache tr := by
  rw [h.always_iff (I := fun t _ => SingleFlight t) (P := fun t _ => SingleFlight t)
    (B := Reclaims) singleFlight_new id
    (fun hp _ hgood hs => (singleFlight_step hp hs).mpr hgood)
    (fun hp _ hbad hs hp' => (singleFlight_step hp hs).mp hp' hbad)]
  constructor
  · exact fun hrun => hrun.mono fun _ _ hok => hok.2
  · exact fun hrun => hrun.mono fun _ _ hok => ⟨trivial, hok⟩

/-! ### One key in all the calls -/

/-- Every thread asks for `key`, and while one of them builds, the slot says so and
nobody else builds. -/
structure OneKey (key : String) (cache : RxDatasetCache) : Prop where
  requests : ∀ v req, (cache.callers v).request = some req → req.cacheKey = key
  marked : ∀ v req, (cache.callers v).builds = some req → cache.state = .building key
  alone : ∀ v v' req req', (cache.callers v).builds = some req →
    (cache.callers v').builds = some req' → v = v'

/-- The calls of `get_or_build` are for `key`. -/
def CallsFor (key : String) : CacheInput → Prop
  | .call _ req => req.cacheKey = key
  | _ => True

section OneKey

variable {key : String} {cache cache' : RxDatasetCache} {i : CacheInput} {os : List CacheObs}

theorem oneKey_new (key : String) : OneKey key .new where
  requests := by simp [RxDatasetCache.new, Caller.request]
  marked := by simp [RxDatasetCache.new, Caller.builds]
  alone := by simp [RxDatasetCache.new, Caller.builds]

/-- The caller of a thread that builds nothing new changes. -/
theorem OneKey.setCaller (h : OneKey key cache) {w : Nat} {caller : Caller}
    (hreq : ∀ req, caller.request = some req → req.cacheKey = key)
    (hb : caller.builds = (cache.callers w).builds) : OneKey key (cache.setCaller w caller) := by
  have hbuilds := RxDatasetCache.builds_setCaller hb
  refine ⟨fun v req hv => ?_, fun v req hv => ?_, fun v v' req req' hv hv' => ?_⟩
  · by_cases hvw : v = w
    · rw [hvw, RxDatasetCache.setCaller_self] at hv
      exact hreq req hv
    · rw [RxDatasetCache.setCaller_of_ne hvw] at hv
      exact h.requests v req hv
  · rw [hbuilds] at hv
    exact h.marked v req hv
  · rw [hbuilds] at hv hv'
    exact h.alone v v' req req' hv hv'

/-- Nobody builds while the slot holds nothing about the key. -/
theorem OneKey.not_builds (h : OneKey key cache) (hlook : cache.state.look key = .claim)
    (v : Nat) : (cache.callers v).builds = none := by
  cases hv : (cache.callers v).builds with
  | none => rfl
  | some req =>
      rw [h.marked v req hv] at hlook
      simp [DatasetState.look] at hlook

theorem OneKey.not_reclaims (h : OneKey key cache) : ¬ Reclaims cache i := by
  cases i with
  | lock w =>
      rintro ⟨req, v, req', hc, hlook, hv, -⟩
      rw [h.requests w req (by rw [hc]; rfl)] at hlook
      have hnone := h.not_builds hlook v
      rw [hv] at hnone
      cases hnone
  | _ => exact id

theorem oneKey_step (h : OneKey key cache) (hi : CallsFor key i)
    (hs : cacheStep cache i = some (cache', os)) : OneKey key cache' := by
  have hkeep : ∀ {w : Nat} {caller : Caller}, caller.request = (cache.callers w).request →
      ∀ req, caller.request = some req → req.cacheKey = key := fun heq req hreq =>
    h.requests _ req (heq ▸ hreq)
  cases cacheMoves_of_step hs with
  | call hc =>
      refine h.setCaller (fun req' hreq => ?_) (by simp [hc, Caller.builds])
      cases hreq
      exact hi
  | hit hc _ => exact h.setCaller (hkeep (by rw [hc]; rfl)) (by simp [hc, Caller.builds])
  | miss hc _ => exact h.setCaller (hkeep (by rw [hc]; rfl)) (by simp [hc, Caller.builds])
  | wait hc _ => exact h.setCaller (hkeep (by rw [hc]; rfl)) (by simp [hc, Caller.builds])
  | wake hc => exact h.setCaller (hkeep (by rw [hc]; rfl)) (by simp [hc, Caller.builds])
  | built hc _ => exact h.setCaller (hkeep (by rw [hc]; rfl)) (by simp [hc, Caller.builds])
  | ret hc => exact h.setCaller (by simp [Caller.request]) (by simp [hc, Caller.builds])
  | @claim w req hc hlook =>
      -- the claimant is the only builder
      have hkey := h.requests w req (by rw [hc]; rfl)
      rw [hkey] at hlook
      have hown : ∀ v req', ((cache.setCaller w (.building req)).callers v).builds = some req' →
          v = w := by
        intro v req' hv
        by_contra hne
        rw [RxDatasetCache.setCaller_of_ne hne, h.not_builds hlook v] at hv
        cases hv
      refine ⟨fun v req' hv => ?_, fun _ _ _ => by rw [← hkey], fun v v' req₁ req₂ hv hv' => ?_⟩
      · by_cases hvw : v = w
        · subst hvw
          have hself : ((cache.setCaller v (.building req)).callers v).request = some req' := hv
          rw [RxDatasetCache.setCaller_self] at hself
          cases hself
          exact hkey
        · have hother : ((cache.setCaller w (.building req)).callers v).request = some req' := hv
          rw [RxDatasetCache.setCaller_of_ne hvw] at hother
          exact h.requests v req' hother
      · rw [hown v req₁ hv, hown v' req₂ hv']
  | @store w req dataset hc =>
      -- nobody else builds, so nobody builds any more
      have hnone : ∀ v, (Function.update (fun v => (cache.callers v).notify) w
          (.returned req dataset) v).builds = none := by
        intro v
        by_cases hv : v = w
        · simp [hv, Caller.builds]
        · rw [Function.update_of_ne hv, Caller.builds_notify, Option.eq_none_iff_forall_ne_some]
          exact fun req' hv' => hv (h.alone v w req' req hv' (by rw [hc]; rfl))
      refine ⟨fun v req' hv => ?_, fun v req' hv => ?_, fun v v' req₁ req₂ hv _ => ?_⟩
      · by_cases hvw : v = w
        · have hown : (Caller.returned req dataset).request = some req' := by
            simpa [hvw] using hv
          cases hown
          exact h.requests w req (by rw [hc]; rfl)
        · exact h.requests v req' (by simpa [hvw] using hv)
      · have hsome := (hnone v).symm.trans hv
        cases hsome
      · have hsome := (hnone v).symm.trans hv
        cases hsome

end OneKey

/-- While all calls are for one key, its build is the only one, and nobody starts another. -/
theorem never_reclaims_of_one_key (key : String) {is : List CacheInput} {cache : RxDatasetCache}
    {tr : List CacheObs} (h : Run cacheStep (fun _ i => CallsFor key i) .new is cache tr) :
    Run cacheStep (fun cache i => ¬ Reclaims cache i) .new is cache tr :=
  (h.withInvariant (P := OneKey key) (oneKey_new key) fun hone hi hs =>
    oneKey_step hone hi hs).mono fun _ _ hok => hok.2.not_reclaims

/-! ### Runs -/

/-- The requests of two jobs with different seeds. -/
def zeroSeedRequest : Request :=
  { algo := "rx/0", seed := "", seedBytes := List.replicate 32 0 }

def oneSeedRequest : Request :=
  { algo := "rx/0", seed := "01", seedBytes := [1] }

/-- A second thread comes to wait for the first one's build. -/
def sharedBuildRun : List CacheInput :=
  [.call 0 zeroSeedRequest, .lock 0, .call 1 zeroSeedRequest, .lock 1]

theorem single_flight_shared :
    ∃ cache tr, Run cacheStep (fun _ _ => True) .new sharedBuildRun cache tr ∧
      ∀ js t tr', js <+: sharedBuildRun → Run cacheStep (fun _ _ => True) .new js t tr' →
        SingleFlight t := by
  have hfirst : ¬ Reclaims (RxDatasetCache.new.setCaller 0 (.locking zeroSeedRequest))
      (.lock 0) := by
    rintro ⟨req, v, req', _, _, hv, _⟩
    by_cases h0 : v = 0
    · subst h0
      simp at hv
    · rw [RxDatasetCache.setCaller_of_ne h0] at hv
      simp [RxDatasetCache.new] at hv
  have hcalled : Run cacheStep (fun cache i => ¬ Reclaims cache i) .new
      [.call 0 zeroSeedRequest] (RxDatasetCache.new.setCaller 0 (.locking zeroSeedRequest)) [] :=
    Run.single id rfl
  have hbuilding := (hcalled.snoc hfirst rfl).snoc (i := .call 1 zeroSeedRequest) id rfl
  have hgood := hbuilding.snoc (i := .lock 1)
    (not_reclaims_of_look rfl (by simp [DatasetState.look])) rfl
  exact ⟨_, _, hgood.any, (single_flight_iff hgood.any).mpr hgood⟩

/-- Another key takes the slot while the first build runs; a third thread asks
for the first key. -/
def forgottenBuildRun : List CacheInput :=
  [.call 0 zeroSeedRequest, .lock 0, .call 1 oneSeedRequest, .lock 1,
    .call 2 zeroSeedRequest, .lock 2]

/-- Two builds of one key run at the same time. -/
theorem two_builds_of_one_key :
    ∃ is cache tr, Run cacheStep (fun _ _ => True) .new is cache tr ∧
      ∃ v v' req, v ≠ v' ∧ cache.callers v = .building req ∧
        cache.callers v' = .building req := by
  have hexec : (exec cacheStep .new forgottenBuildRun).any (fun r =>
      decide (r.1.callers 0 = .building zeroSeedRequest) &&
        decide (r.1.callers 2 = .building zeroSeedRequest)) = true := by decide +kernel
  obtain ⟨cache, tr, hrun, hboth⟩ := anyRun_of_exec_test
    (p := fun (cache : RxDatasetCache) (_ : List CacheObs) =>
      decide (cache.callers 0 = .building zeroSeedRequest) &&
        decide (cache.callers 2 = .building zeroSeedRequest)) hexec
  rw [Bool.and_eq_true, decide_eq_true_eq, decide_eq_true_eq] at hboth
  exact ⟨_, cache, tr, hrun, 0, 2, zeroSeedRequest, by decide, hboth.1, hboth.2⟩

/-! ## The threads that wait -/

/-- Somebody builds the key the slot names, and the key every waiting thread
asked for. -/
structure Awaited (cache : RxDatasetCache) : Prop where
  marked : ∀ key, cache.state = .building key →
    ∃ v req, (cache.callers v).builds = some req ∧ req.cacheKey = key
  waiting : ∀ w req, cache.callers w = .waiting req →
    ∃ v req', (cache.callers v).builds = some req' ∧ req'.cacheKey = req.cacheKey

section Awaited

variable {cache cache' : RxDatasetCache} {i : CacheInput} {os : List CacheObs}

theorem awaited_new : Awaited .new where
  marked := by simp [RxDatasetCache.new]
  waiting := by simp [RxDatasetCache.new]

/-- A thread that builds the same before and after moves, and does not begin
to wait, or waits for the key in the slot. -/
theorem Awaited.setCaller (h : Awaited cache) {w : Nat} {caller : Caller}
    (hb : caller.builds = (cache.callers w).builds)
    (hw : ∀ req, caller = .waiting req → cache.state = .building req.cacheKey) :
    Awaited (cache.setCaller w caller) := by
  have hbuilds := RxDatasetCache.builds_setCaller hb
  have hmarked : ∀ key, cache.state = .building key → ∃ v req,
      ((cache.setCaller w caller).callers v).builds = some req ∧ req.cacheKey = key := by
    intro key hs
    obtain ⟨v, req, hv, hkey⟩ := h.marked key hs
    exact ⟨v, req, by rw [hbuilds, hv], hkey⟩
  refine ⟨hmarked, fun v req hv => ?_⟩
  by_cases hvw : v = w
  · rw [hvw, RxDatasetCache.setCaller_self] at hv
    exact hmarked _ (hw req hv)
  · rw [RxDatasetCache.setCaller_of_ne hvw] at hv
    obtain ⟨u, req', hu, hkey⟩ := h.waiting v req hv
    exact ⟨u, req', by rw [hbuilds, hu], hkey⟩

/-- After a notification nobody waits. -/
theorem not_waiting_store {w : Nat}
    (hs : cacheStep cache (.store w) = some (cache', os)) (v : Nat) (req' : Request) :
    cache'.callers v ≠ .waiting req' := by
  cases cacheMoves_of_step hs with
  | @store _ req₀ dataset₀ hc' =>
      by_cases hv : v = w
      · simp [hv]
      · simpa [hv] using Caller.notify_ne_waiting _ _

theorem awaited_step (h : Awaited cache) (hs : cacheStep cache i = some (cache', os)) :
    Awaited cache' := by
  cases cacheMoves_of_step hs with
  | call hc => exact h.setCaller (by simp [hc, Caller.builds]) (by simp)
  | hit hc _ => exact h.setCaller (by simp [hc, Caller.builds]) (by simp)
  | miss hc _ => exact h.setCaller (by simp [hc, Caller.builds]) (by simp)
  | wait hc hstate =>
      refine h.setCaller (by simp [hc, Caller.builds]) fun req hreq => ?_
      cases hreq
      exact hstate
  | @claim w req hc hlook =>
      -- the claimant builds what the slot now names; the other builders are as before
      have hself : ((cache.setCaller w (.building req)).callers w).builds = some req := by
        simp [Caller.builds]
      refine ⟨fun key hs => ?_, fun v req' hv => ?_⟩
      · cases hs
        exact ⟨w, req, hself, rfl⟩
      · have hvw : v ≠ w := by
          rintro rfl
          simp at hv
        rw [show ({ cache.setCaller w (.building req) with
            state := .building req.cacheKey } : RxDatasetCache).callers v = cache.callers v from
          RxDatasetCache.setCaller_of_ne hvw] at hv
        obtain ⟨u, req₀, hu, hkey⟩ := h.waiting v req' hv
        have huw : u ≠ w := by
          rintro rfl
          simp [hc, Caller.builds] at hu
        refine ⟨u, req₀, ?_, hkey⟩
        rw [show ({ cache.setCaller w (.building req) with
            state := .building req.cacheKey } : RxDatasetCache).callers u = cache.callers u from
          RxDatasetCache.setCaller_of_ne huw, hu]
  | wake hc => exact h.setCaller (by simp [hc, Caller.builds]) (by simp)
  | built hc _ => exact h.setCaller (by simp [hc, Caller.builds]) (by simp)
  | @store w req dataset hc =>
      refine ⟨fun key hstate => ?_, fun v req' hv => ?_⟩
      · cases dataset <;> simp [DatasetState.ofBuilt] at hstate
      · exact absurd hv (not_waiting_store hs v req')
  | ret hc => exact h.setCaller (by simp [hc, Caller.builds]) (by simp)

/-- What a builder has left to do takes every waiting thread back to the lock. -/
theorem exists_notify {v : Nat} {req : Request} (h : (cache.callers v).builds = some req)
    (available : Bool) :
    ∃ js cache' tr', js <:+ [.built v available, .store v] ∧
      Run cacheStep (fun _ _ => True) cache js cache' tr' ∧
      ∀ w req, cache'.callers w ≠ .waiting req := by
  have hstore : ∀ {c : RxDatasetCache} {req dataset}, c.callers v = .storing req dataset →
      ∃ c', Run cacheStep (fun _ _ => True) c [.store v] c' [] ∧
        ∀ w req, c'.callers w ≠ .waiting req := by
    intro c req dataset hc
    obtain ⟨c', hs⟩ : ∃ c', cacheStep c (.store v) = some (c', []) := by simp [cacheStep, hc]
    exact ⟨c', Run.single trivial hs, fun w req' => not_waiting_store hs w req'⟩
  cases hc : cache.callers v with
  | building req' =>
      obtain ⟨cache₁, os, hs, hstoring⟩ : ∃ cache₁ os,
          cacheStep cache (.built v available) = some (cache₁, os) ∧
            cache₁.callers v
              = .storing req' (Dataset.newForAlgo req'.algo req'.seedBytes available) := by
        simp [cacheStep, hc]
      obtain ⟨cache', hrun, hfree⟩ := hstore hstoring
      exact ⟨_, cache', _, List.suffix_refl _, (Run.single trivial hs).append hrun, hfree⟩
  | storing req' dataset =>
      obtain ⟨cache', hrun, hfree⟩ := hstore hc
      exact ⟨_, cache', _, List.suffix_cons _ _, hrun, hfree⟩
  | _ => simp [hc, Caller.builds] at h

end Awaited

/-- At every point of every run a waiting thread has a builder of its key that
is still to notify. So nobody waits once nothing is built; and however the
build ends, its end and the store after it free every waiting thread. -/
theorem no_lost_wakeup {is : List CacheInput} {cache : RxDatasetCache} {tr : List CacheObs}
    (h : Run cacheStep (fun _ _ => True) .new is cache tr) :
    (∀ w req, cache.callers w = .waiting req →
        ∃ v req', (cache.callers v).builds = some req' ∧ req'.cacheKey = req.cacheKey) ∧
      ((∀ v, (cache.callers v).builds = none) → ∀ w req, cache.callers w ≠ .waiting req) ∧
      ∀ v req, (cache.callers v).builds = some req → ∀ available, ∃ js cache' tr',
        js <:+ [.built v available, .store v] ∧
          Run cacheStep (fun _ _ => True) cache js cache' tr' ∧
          ∀ w req, cache'.callers w ≠ .waiting req := by
  have hawaited := h.stateInvariant awaited_new fun ha _ hs => awaited_step ha hs
  refine ⟨hawaited.waiting, fun hnone w req hw => ?_, fun v req hv available => ?_⟩
  · obtain ⟨v, req', hv, _⟩ := hawaited.waiting w req hw
    rw [hnone v] at hv
    cases hv
  · exact exists_notify hv available

/-- The second thread of the shared build waits, and the first one's build frees
it. -/
theorem no_lost_wakeup_shared :
    ∃ cache tr, Run cacheStep (fun _ _ => True) .new sharedBuildRun cache tr ∧
      cache.callers 1 = .waiting zeroSeedRequest ∧
      ∃ v req', (cache.callers v).builds = some req' ∧
        req'.cacheKey = zeroSeedRequest.cacheKey := by
  have hexec : (exec cacheStep .new sharedBuildRun).any (fun r =>
      decide (r.1.callers 1 = .waiting zeroSeedRequest)) = true := by decide +kernel
  obtain ⟨cache, tr, hrun, hwaits⟩ := anyRun_of_exec_test
    (p := fun (cache : RxDatasetCache) (_ : List CacheObs) =>
      decide (cache.callers 1 = .waiting zeroSeedRequest)) hexec
  have hw := of_decide_eq_true hwaits
  exact ⟨cache, tr, hrun, hw, (no_lost_wakeup hrun).1 1 _ hw⟩

end LiteXmr
