/-
LiteXmr.Lib.Checked — straight-line code with checked reads, and its loops.

A piece of code that indexes into data and loops comes to one of three ends: a
value, a panic, or no end within the fuel it was given. Keeping the three
apart is what lets a theorem say "it ends, and without a panic".

* `Outcome` and its `bind`: the first panic is the end.
* `times body n` runs a body at most `n` times, the way a counted `for` does;
  a body says with `Control` whether the loop goes on or is left early.
* `loop body fuel` is a `loop` without a bound, cut off after `fuel` rounds.
  `loop_eq` replaces it by a function that the body respects, as soon as a
  measure falls in every round.
* `Returns` — the value of a piece of code for all large enough fuel; there is
  at most one (`Returns.unique`).
-/
import LiteXmr.Lib.Bytes

namespace LiteXmr.Checked

universe u v

variable {α β σ : Type}

/-! ## Outcomes -/

inductive Outcome (α : Type u) where
  | returned (a : α)
  | panicked
  /-- The fuel is spent. -/
  | running
  deriving DecidableEq, Repr

def Outcome.bind {α : Type u} {β : Type v} : Outcome α → (α → Outcome β) → Outcome β
  | .returned a, f => f a
  | .panicked, _ => .panicked
  | .running, _ => .running

instance : Monad Outcome where
  pure := Outcome.returned
  bind := Outcome.bind

@[simp] theorem returned_bind (a : α) (f : α → Outcome β) : (Outcome.returned a >>= f) = f a := rfl

@[simp] theorem pure_eq (a : α) : (pure a : Outcome α) = .returned a := rfl

/-! ## Checked reads -/

/-- `xs[k]`. -/
def index (xs : List α) (k : Nat) : Outcome α :=
  match xs[k]? with
  | some x => .returned x
  | none => .panicked

/-- `&xs[start..stop]`. -/
def slice (xs : List α) (start stop : Nat) : Outcome (List α) :=
  if start ≤ stop ∧ stop ≤ xs.length then .returned (Bytes.window xs start (stop - start))
  else .panicked

/-- `copy_from_slice` into the whole of an array of `n` elements. -/
def copyFromSlice (n : Nat) (src : List α) : Outcome { xs : List α // xs.length = n } :=
  if h : src.length = n then .returned ⟨src, h⟩ else .panicked

theorem index_eq {xs : List α} {k : Nat} {x : α} (h : xs[k]? = some x) :
    index xs k = .returned x := by
  rw [index, h]

theorem slice_eq {xs : List α} {start n : Nat} (h : start + n ≤ xs.length) :
    slice xs start (start + n) = .returned (Bytes.window xs start n) := by
  rw [slice, if_pos ⟨Nat.le_add_right start n, h⟩, Nat.add_sub_cancel_left]

theorem copyFromSlice_eq {n : Nat} {src : List α} (h : src.length = n) :
    copyFromSlice n src = .returned ⟨src, h⟩ := dif_pos h

/-! ## Loops -/

/-- What a round of a loop says about the next one. -/
inductive Control (σ α : Type) where
  | next (s : σ)
  | stop (a : α)

/-- At most `n` rounds. -/
def times (body : σ → Outcome (Control σ α)) : Nat → σ → Outcome (Control σ α)
  | 0, s => .returned (.next s)
  | n + 1, s => do
      match ← body s with
      | .next s' => times body n s'
      | .stop a => .returned (.stop a)

/-- Rounds until one of them leaves the loop. -/
def loop (body : σ → Outcome (Control σ α)) (fuel : Nat) (s : σ) : Outcome α := do
  match ← times body fuel s with
  | .next _ => .running
  | .stop a => .returned a

@[simp] theorem times_zero (body : σ → Outcome (Control σ α)) (s : σ) :
    times body 0 s = .returned (.next s) := rfl

theorem times_next {body : σ → Outcome (Control σ α)} {n : Nat} {s s' : σ}
    (h : body s = .returned (.next s')) : times body (n + 1) s = times body n s' := by
  rw [times, h, returned_bind]

theorem times_stop {body : σ → Outcome (Control σ α)} {n : Nat} {s : σ} {a : α}
    (h : body s = .returned (.stop a)) : times body (n + 1) s = .returned (.stop a) := by
  rw [times, h, returned_bind]

/-- A loop computes every function that its rounds respect: a round that leaves
the loop leaves it with the value of the function, a round that goes on keeps
the value and brings the measure down. -/
theorem loop_eq {body : σ → Outcome (Control σ α)} (value : σ → α) (measure : σ → Nat)
    (hround : ∀ s, body s = .returned (.stop (value s)) ∨
      ∃ s', body s = .returned (.next s') ∧ measure s' < measure s ∧ value s' = value s) :
    ∀ fuel s, measure s < fuel → loop body fuel s = .returned (value s) := by
  intro fuel
  induction fuel with
  | zero =>
      intro s hfuel
      exact absurd hfuel (Nat.not_lt_zero _)
  | succ fuel ih =>
      intro s hfuel
      obtain hstop | ⟨s', hnext, hless, hvalue⟩ := hround s
      · rw [loop, times_stop hstop, returned_bind]
      · have hrest := ih s' (by omega)
        rw [loop] at hrest
        rw [loop, times_next hnext, hrest, hvalue]

/-! ## Enough fuel -/

/-- The code ends, and with this value. -/
def Returns (code : Nat → Outcome α) (a : α) : Prop :=
  ∃ enough, ∀ fuel, enough ≤ fuel → code fuel = .returned a

theorem Returns.unique {code : Nat → Outcome α} {a b : α} (ha : Returns code a)
    (hb : Returns code b) : a = b := by
  obtain ⟨n, hn⟩ := ha
  obtain ⟨m, hm⟩ := hb
  have hboth := hn (max n m) (Nat.le_max_left n m)
  rw [hm (max n m) (Nat.le_max_right n m)] at hboth
  cases hboth
  rfl

end LiteXmr.Checked
