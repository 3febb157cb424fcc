/-
LiteXmr.Lib.Lts — labelled transition systems given by an executable step
function, their runs, and the induction rules the protocol proofs use.

A system is a function `step : σ → ι → Option (σ × List ω)`: in state `s`
the input `i` is either not enabled (`none`) or leads to one successor and
makes a list of observations. Everything the environment decides (which
party moves, what the network answers) is in the input, so the step
function is deterministic and runs can be replayed with `exec`.

* `Run step ok s₀ is s tr` — the inputs `is` lead from `s₀` to `s`, every
  step satisfies `ok`, and the observations made are `tr`, in order. With
  `ok := fun _ _ => True` these are all runs; a smaller `ok` restricts the
  environment, which is how a condition on every step of a run is stated.
* `Run.invariant` — a predicate on state and trace that holds initially and
  is preserved by every allowed step holds after every run.
* `Run.withInvariant` — an invariant may be assumed of the states a run
  steps from.
* `Run.of_guarded` — a replay that stops at the steps a test refuses is a run of
  the others.
* `Run.always_iff` — for a failure that can pass: a predicate holds at every
  point of a run exactly when no step was of the kind that breaks it.
* `Run.holds_iff` — for a predicate that, once broken, stays broken; and
  `Run.avoids_iff`, for a failure of the state that is never left.
* `Run.project` — a system whose every step is a step of a component, or
  leaves the component alone, projects to a run of the component.
* `Run.without` — inputs that change nothing can be left out of a run.
* `Leads` — reachability between state predicates; `Leads.iterate` follows a
  loop through an invariant that counts its rounds, `Leads.of_measure` takes
  steps as long as a measure falls.
* `Justified` — every observation of a trace is justified by what came
  before it; `justified_snoc` reduces an append to its last element, and
  `Run.justified` a run to its steps.
* `Followed` — the same for what comes after an observation.
-/
import Mathlib.Tactic.Common

namespace LiteXmr.Lts

universe u v w u' v' w'

variable {σ : Type u} {ι : Type v} {ω : Type w}

/-- A step function: `none` when the input is not enabled. -/
abbrev Step (σ : Type u) (ι : Type v) (ω : Type w) := σ → ι → Option (σ × List ω)

/-- The runs from `s₀` whose every step satisfies `ok`. -/
inductive Run (step : Step σ ι ω) (ok : σ → ι → Prop) (s₀ : σ) :
    List ι → σ → List ω → Prop where
  | nil : Run step ok s₀ [] s₀ []
  | snoc {is : List ι} {s s' : σ} {tr os : List ω} {i : ι} :
      Run step ok s₀ is s tr → ok s i → step s i = some (s', os) →
      Run step ok s₀ (is ++ [i]) s' (tr ++ os)

/-- Replay a list of inputs. -/
def exec (step : Step σ ι ω) : σ → List ι → Option (σ × List ω)
  | s, [] => some (s, [])
  | s, i :: is =>
      match step s i with
      | none => none
      | some (s', os) =>
          match exec step s' is with
          | none => none
          | some (s'', tr) => some (s'', os ++ tr)

variable {step : Step σ ι ω} {ok ok' : σ → ι → Prop} {s₀ s s' : σ}
  {is js : List ι} {tr tr' : List ω}

theorem Run.single {i : ι} {os : List ω} (hok : ok s i)
    (hs : step s i = some (s', os)) : Run step ok s [i] s' os := by
  simpa using Run.nil.snoc hok hs

/-- Runs compose. -/
theorem Run.append (h : Run step ok s₀ is s tr) (h' : Run step ok s js s' tr') :
    Run step ok s₀ (is ++ js) s' (tr ++ tr') := by
  induction h' with
  | nil => simpa using h
  | snoc _ hok hs ih =>
      rw [← List.append_assoc, ← List.append_assoc]
      exact ih.snoc hok hs

/-- Replays compose. -/
theorem exec_append (s : σ) (is js : List ι) :
    exec step s (is ++ js) = (exec step s is).bind fun r =>
      (exec step r.1 js).map fun r' => (r'.1, r.2 ++ r'.2) := by
  induction is generalizing s with
  | nil =>
      cases he : exec step s js with
      | none => simp [exec, he]
      | some r => simp [exec, he]
  | cons i is ih =>
      simp only [List.cons_append, exec]
      cases step s i with
      | none => rfl
      | some r =>
          obtain ⟨s', os⟩ := r
          simp only [ih]
          cases exec step s' is with
          | none => rfl
          | some r =>
              obtain ⟨t, tr⟩ := r
              cases he : exec step t js with
              | none => simp [he]
              | some r => simp [he]

theorem exec_append_of_some {t : σ} (h : exec step s is = some (s', tr))
    (h' : exec step s' js = some (t, tr')) :
    exec step s (is ++ js) = some (t, tr ++ tr') := by
  simp [exec_append, h, h']

theorem exec_append_eq_some {t : σ} (h : exec step s (is ++ js) = some (t, tr)) :
    ∃ s' tr₁ tr₂, exec step s is = some (s', tr₁) ∧ exec step s' js = some (t, tr₂) ∧
      tr = tr₁ ++ tr₂ := by
  rw [exec_append] at h
  obtain ⟨⟨s', tr₁⟩, h₁, h⟩ := Option.bind_eq_some_iff.mp h
  obtain ⟨⟨t', tr₂⟩, h₂, h⟩ := Option.map_eq_some_iff.mp h
  cases h
  exact ⟨s', tr₁, tr₂, h₁, h₂, rfl⟩

/-- A replay is a run, for any condition its inputs satisfy. -/
theorem run_of_exec (h : exec step s is = some (s', tr))
    (hok : ∀ t, ∀ i ∈ is, ok t i) : Run step ok s is s' tr := by
  induction is generalizing s tr with
  | nil =>
      simp only [exec, Option.some.injEq, Prod.mk.injEq] at h
      obtain ⟨rfl, rfl⟩ := h
      exact Run.nil
  | cons i is ih =>
      simp only [exec] at h
      split at h
      · cases h
      · next s₁ os hs =>
          split at h
          · cases h
          · next s₂ tr₂ he =>
              simp only [Option.some.injEq, Prod.mk.injEq] at h
              obtain ⟨rfl, rfl⟩ := h
              exact (Run.single (hok s i (by simp)) hs).append
                (ih he fun t j hj => hok t j (by simp [hj]))

/-- The state and trace a replay ends in, through a Boolean test of both:
the form in which a concrete run is checked by evaluation. -/
theorem run_of_exec_test {p : σ → List ω → Bool}
    (h : (exec step s is).any (fun r => p r.1 r.2) = true)
    (hok : ∀ t, ∀ i ∈ is, ok t i) :
    ∃ s' tr, Run step ok s is s' tr ∧ p s' tr = true := by
  cases he : exec step s is with
  | none => simp [he] at h
  | some r =>
      obtain ⟨s', tr⟩ := r
      exact ⟨s', tr, run_of_exec he hok, by simpa [he] using h⟩

/-- The same for a run without a condition. -/
theorem anyRun_of_exec_test {p : σ → List ω → Bool}
    (h : (exec step s is).any (fun r => p r.1 r.2) = true) :
    ∃ s' tr, Run step (fun _ _ => True) s is s' tr ∧ p s' tr = true :=
  run_of_exec_test h fun _ _ _ => trivial

/-- The steps that a test lets through. -/
def guarded (step : Step σ ι ω) (bad : σ → ι → Bool) : Step σ ι ω := fun s i =>
  if bad s i then none else step s i

theorem Run.of_guarded {bad : σ → ι → Bool} (h : Run (guarded step bad) ok s₀ is s tr) :
    Run step (fun s i => bad s i = false) s₀ is s tr := by
  induction h with
  | nil => exact Run.nil
  | snoc _ _ hs ih =>
      unfold guarded at hs
      split at hs
      · cases hs
      · next hgood => exact ih.snoc (Bool.eq_false_iff.mpr hgood) hs

/-- The last observation of a trace passes a test, given those before it. -/
def endsWith (test : List ω → ω → Bool) (tr : List ω) : Bool :=
  match tr.reverse with
  | x :: past => test past.reverse x
  | [] => false

theorem exists_of_endsWith {test : List ω → ω → Bool} (h : endsWith test tr = true) :
    ∃ pre x, tr = pre ++ [x] ∧ test pre x = true := by
  unfold endsWith at h
  split at h
  · next x past hrev => exact ⟨past.reverse, x, by simpa using congrArg List.reverse hrev, h⟩
  · cases h

/-- Weaken the condition on the steps a run makes. -/
theorem Run.mono_steps (hmono : ∀ {s s' : σ} {os : List ω} {i : ι},
      ok s i → step s i = some (s', os) → ok' s i)
    (h : Run step ok s₀ is s tr) : Run step ok' s₀ is s tr := by
  induction h with
  | nil => exact Run.nil
  | snoc _ hok hs ih => exact ih.snoc (hmono hok hs) hs

theorem Run.mono (hmono : ∀ s i, ok s i → ok' s i) (h : Run step ok s₀ is s tr) :
    Run step ok' s₀ is s tr := h.mono_steps fun hok _ => hmono _ _ hok

/-- A run, whatever else is known of its steps. -/
theorem Run.any (h : Run step ok s₀ is s tr) : Run step (fun _ _ => True) s₀ is s tr :=
  h.mono fun _ _ _ => trivial

/-- The invariant rule: what holds initially and survives every allowed
step holds of the state and the trace of every run. -/
theorem Run.invariant {P : σ → List ω → Prop} (hinit : P s₀ [])
    (hstep : ∀ {s s' : σ} {tr os : List ω} {i : ι},
      P s tr → ok s i → step s i = some (s', os) → P s' (tr ++ os))
    (h : Run step ok s₀ is s tr) : P s tr := by
  induction h with
  | nil => exact hinit
  | snoc _ hok hs ih => exact hstep ih hok hs

/-- The invariant rule for a predicate of the state alone. -/
theorem Run.stateInvariant {P : σ → Prop} (hinit : P s₀)
    (hstep : ∀ {s s' : σ} {os : List ω} {i : ι},
      P s → ok s i → step s i = some (s', os) → P s')
    (h : Run step ok s₀ is s tr) : P s :=
  Run.invariant (P := fun s _ => P s) hinit (fun hp hok hs => hstep hp hok hs) h

/-- An invariant of the state can be assumed at every step of a run. -/
theorem Run.withInvariant {P : σ → Prop} (hinit : P s₀)
    (hstep : ∀ {s s' : σ} {os : List ω} {i : ι},
      P s → ok s i → step s i = some (s', os) → P s')
    (h : Run step ok s₀ is s tr) : Run step (fun s i => ok s i ∧ P s) s₀ is s tr := by
  induction h with
  | nil => exact Run.nil
  | snoc hrun hok hs ih => exact ih.snoc ⟨hok, hrun.stateInvariant hinit hstep⟩ hs

/-- A list of inputs leads to one state and one trace. -/
theorem Run.unique (h : Run step ok s₀ is s tr) :
    ∀ {s' : σ} {tr' : List ω}, Run step ok' s₀ is s' tr' → s' = s ∧ tr' = tr := by
  induction h with
  | nil =>
      intro s' tr' h'
      generalize hn : ([] : List ι) = js at h'
      cases h' with
      | nil => exact ⟨rfl, rfl⟩
      | snoc _ _ _ => simp at hn
  | @snoc is s t tr os i _ _ hs ih =>
      intro s' tr' h'
      generalize hn : is ++ [i] = js at h'
      cases h' with
      | nil => simp at hn
      | snoc hrun' _ hs' =>
          obtain ⟨rfl, hi⟩ := List.append_inj' hn rfl
          obtain rfl := List.singleton_inj.mp hi
          obtain ⟨rfl, rfl⟩ := ih hrun'
          rw [hs] at hs'
          cases hs'
          exact ⟨rfl, rfl⟩

/-- The beginning of a run is a run. -/
theorem Run.of_prefix (h : Run step ok s₀ is s tr) :
    ∀ {js : List ι}, js <+: is → ∃ t tr', Run step ok s₀ js t tr' := by
  induction h with
  | nil =>
      intro js hjs
      obtain rfl := List.prefix_nil.mp hjs
      exact ⟨s₀, [], Run.nil⟩
  | snoc hrun hok hs ih =>
      intro js hjs
      rcases List.prefix_concat_iff.mp hjs with rfl | hjs
      · exact ⟨_, _, hrun.snoc hok hs⟩
      · exact ih hjs

/-- A predicate `P` that an invariant `I` of the good steps implies, and that a
step of `B` breaks: it holds at every point of a run exactly when all steps of
the run were good. -/
theorem Run.always_iff {I P : σ → List ω → Prop} {B : σ → ι → Prop} (hinit : I s₀ [])
    (hI : ∀ {s : σ} {tr : List ω}, I s tr → P s tr)
    (hgood : ∀ {s s' : σ} {tr os : List ω} {i : ι},
      I s tr → ok s i → ¬ B s i → step s i = some (s', os) → I s' (tr ++ os))
    (hbad : ∀ {s s' : σ} {tr os : List ω} {i : ι},
      I s tr → ok s i → B s i → step s i = some (s', os) → ¬ P s' (tr ++ os))
    (h : Run step ok s₀ is s tr) :
    (∀ js t tr', js <+: is → Run step ok s₀ js t tr' → P t tr') ↔
      Run step (fun s i => ok s i ∧ ¬ B s i) s₀ is s tr := by
  have hinv : ∀ {is : List ι} {s : σ} {tr : List ω},
      Run step (fun s i => ok s i ∧ ¬ B s i) s₀ is s tr → I s tr := fun hrun =>
    hrun.invariant hinit fun hi hok hs => hgood hi hok.1 hok.2 hs
  constructor
  · intro hall
    induction h with
    | nil => exact Run.nil
    | @snoc is s s' tr os i hrun hok hs ih =>
        have hbefore := ih fun js t tr' hjs => hall js t tr' (hjs.trans (List.prefix_append _ _))
        have hafter : P s' (tr ++ os) := hall _ s' _ (List.prefix_refl _) (hrun.snoc hok hs)
        exact hbefore.snoc ⟨hok, fun hb => hbad (hinv hbefore) hok hb hs hafter⟩ hs
  · intro hrun js t tr' hjs hrun'
    obtain ⟨t', tr'', hprefix⟩ := hrun.of_prefix hjs
    obtain ⟨rfl, rfl⟩ := hprefix.unique hrun'
    exact hI (hinv hprefix)

/-- A predicate of the trace that holds after a step exactly when it held
before and the step was not one of `B`, where an invariant `I` may be used: it
holds of a run exactly when all steps of the run were good. -/
theorem Run.holds_iff {I P : σ → List ω → Prop} {B : σ → ι → Prop} (hI₀ : I s₀ [])
    (hI : ∀ {s s' : σ} {tr os : List ω} {i : ι},
      I s tr → ok s i → step s i = some (s', os) → I s' (tr ++ os))
    (hinit : P s₀ [])
    (hstep : ∀ {s s' : σ} {tr os : List ω} {i : ι},
      I s tr → ok s i → step s i = some (s', os) → (P s' (tr ++ os) ↔ P s tr ∧ ¬ B s i))
    (h : Run step ok s₀ is s tr) :
    P s tr ↔ Run step (fun s i => ok s i ∧ ¬ B s i) s₀ is s tr := by
  constructor
  · intro hp
    induction h with
    | nil => exact Run.nil
    | snoc hrun hok hs ih =>
        obtain ⟨hbefore, hb⟩ := (hstep (hrun.invariant hI₀ hI) hok hs).mp hp
        exact (ih hbefore).snoc ⟨hok, hb⟩ hs
  · intro hgood
    have hboth := hgood.invariant (P := fun s tr => I s tr ∧ P s tr) ⟨hI₀, hinit⟩
      fun hip hok hs => ⟨hI hip.1 hok.1 hs, (hstep hip.1 hok.1 hs).mpr ⟨hip.2, hok.2⟩⟩
    exact hboth.2

/-- A failure `F` that is entered exactly by the steps satisfying `B` and
is never left: a run has not failed exactly when all its steps were good. -/
theorem Run.avoids_iff {F : σ → Prop} {B : σ → ι → Prop} (hinit : ¬ F s₀)
    (henter : ∀ {s s' : σ} {os : List ω} {i : ι},
      ¬ F s → ok s i → step s i = some (s', os) → (F s' ↔ B s i))
    (hstay : ∀ {s s' : σ} {os : List ω} {i : ι},
      F s → ok s i → step s i = some (s', os) → F s')
    (h : Run step ok s₀ is s tr) :
    ¬ F s ↔ Run step (fun s i => ok s i ∧ ¬ B s i) s₀ is s tr := by
  refine h.holds_iff (I := fun _ _ => True) (P := fun s _ => ¬ F s) trivial
    (fun _ _ _ => trivial) hinit ?_
  intro s s' _ os i _ hok hs
  constructor
  · intro hF
    have hbefore : ¬ F s := fun hf => hF (hstay hf hok hs)
    exact ⟨hbefore, fun hb => hF ((henter hbefore hok hs).mpr hb)⟩
  · intro hgood hF
    exact hgood.2 ((henter hgood.1 hok hs).mp hF)

/-- Projection to a component: `f` reads the component's state, `g` its
observations, and every step of the system either leaves the component
alone and makes none of its observations, or is one of its steps. -/
theorem Run.project {σ' : Type u'} {ι' : Type v'} {ω' : Type w'}
    {step' : Step σ' ι' ω'} {okc : σ' → ι' → Prop} (f : σ → σ') (g : ω → Option ω')
    (hstep : ∀ {s s' : σ} {os : List ω} {i : ι},
      ok s i → step s i = some (s', os) →
      (f s' = f s ∧ os.filterMap g = []) ∨
        ∃ j, okc (f s) j ∧ step' (f s) j = some (f s', os.filterMap g))
    (h : Run step ok s₀ is s tr) :
    ∃ js, Run step' okc (f s₀) js (f s) (tr.filterMap g) := by
  induction h with
  | nil => exact ⟨[], Run.nil⟩
  | snoc _ hok hs ih =>
      obtain ⟨js, hrun⟩ := ih
      rw [List.filterMap_append]
      rcases hstep hok hs with ⟨hf, hg⟩ | ⟨j, hok', hs'⟩
      · exact ⟨js, by rw [hf, hg, List.append_nil]; exact hrun⟩
      · exact ⟨js ++ [j], hrun.snoc hok' hs'⟩

/-- What is left of a list of inputs without those to be skipped: the state goes on as
if a skipped input had not been there. -/
def keepInput (step : Step σ ι ω) (skip : σ → ι → Bool) (acc : σ × List ι) (i : ι) :
    σ × List ι :=
  if skip acc.1 i then acc
  else match step acc.1 i with
    | some (s', _) => (s', acc.2 ++ [i])
    | none => (acc.1, acc.2 ++ [i])

def without (step : Step σ ι ω) (skip : σ → ι → Bool) (s₀ : σ) (is : List ι) : List ι :=
  (is.foldl (keepInput step skip) (s₀, [])).2

/-- When the skipped inputs change nothing and show nothing, the run without them ends
in the same state and with the same trace. -/
theorem Run.without (skip : σ → ι → Bool)
    (hskip : ∀ {s s' : σ} {os : List ω} {i : ι},
      ok s i → skip s i = true → step s i = some (s', os) → s' = s ∧ os = [])
    (h : Run step ok s₀ is s tr) : Run step ok s₀ (without step skip s₀ is) s tr := by
  have hboth : (is.foldl (keepInput step skip) (s₀, [])).1 = s ∧
      Run step ok s₀ (is.foldl (keepInput step skip) (s₀, [])).2 s tr := by
    induction h with
    | nil => exact ⟨rfl, Run.nil⟩
    | @snoc is s s' tr os i _ hok hs ih =>
        obtain ⟨hstate, hrun⟩ := ih
        rw [List.foldl_append, List.foldl_cons, List.foldl_nil, keepInput, hstate]
        by_cases hi : skip s i = true
        · obtain ⟨rfl, rfl⟩ := hskip hok hi hs
          rw [if_pos hi, List.append_nil]
          exact ⟨hstate, hrun⟩
        · rw [if_neg hi, hs]
          exact ⟨rfl, hrun.snoc hok hs⟩
  exact hboth.2

/-! ## Reachability -/

/-- From every state of `P` some run leads to a state of `Q`. -/
def Leads (step : Step σ ι ω) (ok : σ → ι → Prop) (P Q : σ → Prop) : Prop :=
  ∀ s, P s → ∃ is s' tr, Run step ok s is s' tr ∧ Q s'

namespace Leads

variable {P Q R : σ → Prop}

theorem refl (P : σ → Prop) : Leads step ok P P := fun s hs => ⟨[], s, [], Run.nil, hs⟩

theorem trans (hpq : Leads step ok P Q) (hqr : Leads step ok Q R) : Leads step ok P R := by
  intro s hs
  obtain ⟨is, t, tr, hst, ht⟩ := hpq s hs
  obtain ⟨js, u, tr', htu, hu⟩ := hqr t ht
  exact ⟨is ++ js, u, tr ++ tr', hst.append htu, hu⟩

/-- The same inputs from every state of `P`. -/
theorem of_exec (is : List ι) (hok : ∀ t, ∀ i ∈ is, ok t i)
    (h : ∀ s, P s → ∃ r, exec step s is = some r ∧ Q r.1) : Leads step ok P Q := by
  intro s hs
  obtain ⟨⟨s', tr⟩, he, hq⟩ := h s hs
  exact ⟨is, s', tr, run_of_exec he hok, hq⟩

/-- A loop whose invariant counts its rounds, up to a bound. -/
theorem iterate {I : Nat → σ → Prop} (n : Nat)
    (body : ∀ k, k < n → Leads step ok (I k) (I (k + 1))) : Leads step ok (I 0) (I n) := by
  induction n with
  | zero => exact refl _
  | succ n ih =>
      exact (ih fun k hk => body k (Nat.lt_succ_of_lt hk)).trans (body n (Nat.lt_succ_self n))

/-- Every state of `P` is one of `Q`, or has a step to a state of `P` with a smaller
measure. -/
theorem of_measure (measure : σ → Nat)
    (h : ∀ s, P s → Q s ∨
      ∃ i s' os, ok s i ∧ step s i = some (s', os) ∧ P s' ∧ measure s' < measure s) :
    Leads step ok P Q := by
  suffices hall : ∀ n s, measure s = n → P s → ∃ is s' tr, Run step ok s is s' tr ∧ Q s' from
    fun s hs => hall _ s rfl hs
  intro n
  induction n using Nat.strongRecOn with
  | ind n ih =>
      intro s hn hs
      rcases h s hs with hq | ⟨i, s', os, hok, hstep, hp, hless⟩
      · exact ⟨[], s, [], Run.nil, hq⟩
      · obtain ⟨is, t, tr, hrun, ht⟩ := ih (measure s') (hn ▸ hless) s' rfl hp
        exact ⟨[i] ++ is, t, os ++ tr, (Run.single hok hstep).append hrun, ht⟩

end Leads

/-! ## Traces whose observations are justified by their past -/

/-- Every observation `x` of the trace satisfies `just` of the observations
made before it. -/
def Justified (just : List ω → ω → Prop) (tr : List ω) : Prop :=
  ∀ pre x post, tr = pre ++ x :: post → just pre x

variable {just : List ω → ω → Prop}

theorem justified_nil : Justified just [] := by
  intro pre x post h
  simp at h

/-- One more observation at the end. -/
theorem justified_snoc (tr : List ω) (x : ω) :
    Justified just (tr ++ [x]) ↔ Justified just tr ∧ just tr x := by
  constructor
  · intro h
    refine ⟨fun pre y post hy => h pre y (post ++ [x]) (by simp [hy]), h tr x [] rfl⟩
  · rintro ⟨htr, hx⟩ pre y post h
    rcases List.eq_nil_or_concat post with rfl | ⟨post', z, rfl⟩
    · obtain ⟨rfl, hy⟩ := List.append_inj' h rfl
      obtain rfl : x = y := by simpa using hy
      exact hx
    · have h' : tr ++ [x] = (pre ++ y :: post') ++ [z] := by simpa using h
      exact htr pre y post' (List.append_inj' h' rfl).1

/-- A step's observations extend a justified trace when each is justified by
the trace and the observations of the step before it. -/
theorem Justified.append {tr os : List ω} (h : Justified just tr)
    (hos : ∀ pre x post, os = pre ++ x :: post → just (tr ++ pre) x) :
    Justified just (tr ++ os) := by
  induction os generalizing tr with
  | nil => simpa using h
  | cons x os ih =>
      have hx : Justified just (tr ++ [x]) :=
        (justified_snoc tr x).mpr ⟨h, by simpa using hos [] x os rfl⟩
      have := ih hx fun pre y post hy => by
        simpa using hos (x :: pre) y post (by simp [hy])
      simpa using this

theorem Justified.of_append {tr os : List ω} (h : Justified just (tr ++ os)) :
    Justified just tr := fun pre x post htr => h pre x (post ++ os) (by simp [htr])

/-- A trace is justified when every step justifies its observations from the
trace of the run before it. -/
theorem Run.justified
    (hstep : ∀ {is : List ι} {s s' : σ} {tr os : List ω} {i : ι},
      Run step ok s₀ is s tr → ok s i → step s i = some (s', os) →
        ∀ pre x post, os = pre ++ x :: post → just (tr ++ pre) x)
    (h : Run step ok s₀ is s tr) : Justified just tr := by
  induction h with
  | nil => exact justified_nil
  | snoc hrun hok hs ih => exact ih.append (hstep hrun hok hs)

/-! ## What follows an observation -/

/-- Every observation `x` of the trace satisfies `just` with the observations
made after it. -/
def Followed (just : ω → List ω → Prop) (tr : List ω) : Prop :=
  ∀ pre x post, tr = pre ++ x :: post → just x post

/-- More observations come after all the earlier ones. -/
theorem followed_append {just : ω → List ω → Prop} {tr os : List ω} :
    Followed just (tr ++ os) ↔
      Followed (fun x post => just x (post ++ os)) tr ∧ Followed just os := by
  constructor
  · intro h
    refine ⟨fun pre x post htr => h pre x (post ++ os) (by simp [htr]), ?_⟩
    exact fun pre x post hos => h (tr ++ pre) x post (by simp [hos])
  · intro h pre x post heq
    rcases List.append_eq_append_iff.mp heq with ⟨mid, rfl, hos⟩ | ⟨mid, rfl, hmid⟩
    · exact h.2 mid x post hos
    · cases mid with
      | nil => exact h.2 [] x post hmid.symm
      | cons y mid =>
          obtain ⟨rfl, rfl⟩ := List.cons.inj hmid
          exact h.1 pre x mid rfl

end LiteXmr.Lts
