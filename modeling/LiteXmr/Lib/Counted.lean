/-
LiteXmr.Lib.Counted — objects that several owners share by counting.

Each owner holds at most one object. An object has a counter, which a new
owner raises and an owner that lets go lowers; whoever brings it to zero has
to release the object.

* `Counted.Exact` — every counter is the number of the owners of its object.
  The operations keep it, given that a new owner held nothing before.
* `Exact.released_iff` — an owner that lets go releases the object exactly
  when it was the last one.
* `held_make`, `held_clone`, `held_move`, `Exact.held_drop` — what is held
  afterwards.
-/
import Mathlib.Data.Finset.Card
import Mathlib.Logic.Function.Basic

namespace LiteXmr

universe u v

/-- What each owner holds, and the counter of each object. -/
structure Counted (κ : Type u) (ι : Type v) where
  holds : κ → Option ι
  strong : ι → Nat

namespace Counted

variable {κ : Type u} {ι : Type v}

def empty : Counted κ ι := { holds := fun _ => none, strong := fun _ => 0 }

/-- Somebody holds the object. -/
def Held (c : Counted κ ι) (x : ι) : Prop := ∃ o, c.holds o = some x

/-- The counter of an object is the number of its owners. -/
def Exact (c : Counted κ ι) : Prop :=
  ∀ x, ∃ owners : Finset κ, (∀ o, o ∈ owners ↔ c.holds o = some x) ∧ owners.card = c.strong x

theorem exact_empty : (empty : Counted κ ι).Exact := fun x => ⟨∅, by simp [empty], rfl⟩

variable [DecidableEq κ]

/-- What `o` holds goes over to `o'`. -/
def move (c : Counted κ ι) (o o' : κ) : Counted κ ι :=
  { c with holds := Function.update (Function.update c.holds o none) o' (c.holds o) }

section Move

variable {c : Counted κ ι} {o o' p : κ} {y : ι}

@[simp] theorem move_holds_self : (c.move o o').holds o' = c.holds o := by simp [move]

@[simp] theorem move_holds_of_ne (h : p ≠ o) (h' : p ≠ o') :
    (c.move o o').holds p = c.holds p := by
  simp [move, h, h']

theorem move_holds_source (h : o ≠ o') : (c.move o o').holds o = none := by simp [move, h]

theorem held_move (h : c.holds o' = none) : (c.move o o').Held y ↔ c.Held y := by
  constructor
  · rintro ⟨p, hp⟩
    by_cases hpo' : p = o'
    · subst hpo'
      exact ⟨o, by rw [← hp, move_holds_self]⟩
    · by_cases hpo : p = o
      · subst hpo
        rw [move_holds_source hpo'] at hp
        cases hp
      · exact ⟨p, by rw [← hp, move_holds_of_ne hpo hpo']⟩
  · rintro ⟨p, hp⟩
    by_cases hpo : p = o
    · subst hpo
      exact ⟨o', by rw [move_holds_self, hp]⟩
    · have hpo' : p ≠ o' := by
        rintro rfl
        rw [h] at hp
        cases hp
      exact ⟨p, by rw [move_holds_of_ne hpo hpo', hp]⟩

end Move

variable [DecidableEq ι]

/-- A new object and its first owner. -/
def make (c : Counted κ ι) (o : κ) (x : ι) : Counted κ ι :=
  { holds := Function.update c.holds o (some x), strong := Function.update c.strong x 1 }

/-- One more owner of what `o` holds. -/
def clone (c : Counted κ ι) (o o' : κ) : Counted κ ι :=
  match c.holds o with
  | none => c
  | some x =>
      { holds := Function.update c.holds o' (some x)
        strong := Function.update c.strong x (c.strong x + 1) }

/-- The owner lets go of what it holds. The object is to be released when the
counter comes to zero. -/
def drop (c : Counted κ ι) (o : κ) : Counted κ ι × Option ι :=
  match c.holds o with
  | none => (c, none)
  | some x =>
      ({ holds := Function.update c.holds o none
         strong := Function.update c.strong x (c.strong x - 1) },
       if c.strong x - 1 = 0 then some x else none)

variable {c : Counted κ ι} {o o' p : κ} {x y : ι}

/-! ## What is held afterwards -/

@[simp] theorem make_holds_self : (c.make o x).holds o = some x := by simp [make]

@[simp] theorem make_holds_of_ne (h : p ≠ o) : (c.make o x).holds p = c.holds p := by
  simp [make, h]

theorem clone_holds : (c.clone o o').holds = Function.update c.holds o'
    (if (c.holds o).isSome then c.holds o else c.holds o') := by
  unfold clone
  cases h : c.holds o <;> simp

@[simp] theorem clone_holds_of_ne (h : p ≠ o') : (c.clone o o').holds p = c.holds p := by
  rw [clone_holds, Function.update_of_ne h]

theorem clone_holds_self (h : c.holds o' = none) : (c.clone o o').holds o' = c.holds o := by
  rw [clone_holds, Function.update_self]
  cases c.holds o <;> simp [h]

@[simp] theorem drop_holds_self : (c.drop o).1.holds o = none := by
  unfold drop
  cases h : c.holds o <;> simp [h]

@[simp] theorem drop_holds_of_ne (h : p ≠ o) : (c.drop o).1.holds p = c.holds p := by
  unfold drop
  cases c.holds o <;> simp [h]

theorem held_make (h : c.holds o = none) : (c.make o x).Held y ↔ y = x ∨ c.Held y := by
  constructor
  · rintro ⟨p, hp⟩
    by_cases hpo : p = o
    · subst hpo
      rw [make_holds_self] at hp
      exact Or.inl (Option.some.inj hp).symm
    · rw [make_holds_of_ne hpo] at hp
      exact Or.inr ⟨p, hp⟩
  · rintro (rfl | ⟨p, hp⟩)
    · exact ⟨o, make_holds_self⟩
    · have hpo : p ≠ o := by
        rintro rfl
        rw [h] at hp
        cases hp
      exact ⟨p, by rw [make_holds_of_ne hpo, hp]⟩

theorem held_clone (h : c.holds o' = none) : (c.clone o o').Held y ↔ c.Held y := by
  constructor
  · rintro ⟨p, hp⟩
    by_cases hpo : p = o'
    · subst hpo
      rw [clone_holds_self h] at hp
      exact ⟨o, hp⟩
    · exact ⟨p, by rw [← hp, clone_holds_of_ne hpo]⟩
  · rintro ⟨p, hp⟩
    have hpo : p ≠ o' := by
      rintro rfl
      rw [h] at hp
      cases hp
    exact ⟨p, by rw [clone_holds_of_ne hpo, hp]⟩

/-! ## The counters -/

theorem Exact.make (h : c.Exact) (ho : c.holds o = none) (hx : ¬ c.Held x) :
    (c.make o x).Exact := by
  intro y
  by_cases hy : y = x
  · subst hy
    refine ⟨{o}, fun p => ?_, by simp [Counted.make]⟩
    by_cases hp : p = o
    · simp [hp]
    · have hother : c.holds p ≠ some y := fun heq => hx ⟨p, heq⟩
      simp [hp, hother]
  · obtain ⟨owners, hmem, hcard⟩ := h y
    refine ⟨owners, fun p => ?_, by simp [Counted.make, hy, hcard]⟩
    by_cases hp : p = o
    · subst hp
      simp [hmem, ho, Ne.symm hy]
    · rw [make_holds_of_ne hp, hmem]

theorem Exact.clone (h : c.Exact) (ho' : c.holds o' = none) : (c.clone o o').Exact := by
  cases ho : c.holds o with
  | none => simpa [Counted.clone, ho] using h
  | some x =>
      intro y
      obtain ⟨owners, hmem, hcard⟩ := h y
      by_cases hy : y = x
      · subst hy
        have hnew : o' ∉ owners := by simp [hmem, ho']
        refine ⟨insert o' owners, fun p => ?_, ?_⟩
        · by_cases hp : p = o'
          · subst hp
            simp [clone_holds_self ho', ho]
          · rw [clone_holds_of_ne hp, Finset.mem_insert, hmem]
            simp [hp]
        · rw [Finset.card_insert_of_notMem hnew, hcard]
          simp [Counted.clone, ho]
      · refine ⟨owners, fun p => ?_, by simp [Counted.clone, ho, hy, hcard]⟩
        by_cases hp : p = o'
        · subst hp
          simp [hmem, ho', clone_holds_self ho', ho, Ne.symm hy]
        · rw [clone_holds_of_ne hp, hmem]

theorem Exact.drop (h : c.Exact) (o : κ) : (c.drop o).1.Exact := by
  cases ho : c.holds o with
  | none => simpa [Counted.drop, ho] using h
  | some x =>
      intro y
      obtain ⟨owners, hmem, hcard⟩ := h y
      by_cases hy : y = x
      · subst hy
        have hin : o ∈ owners := (hmem o).mpr ho
        refine ⟨owners.erase o, fun p => ?_, ?_⟩
        · by_cases hp : p = o
          · simp [hp]
          · rw [drop_holds_of_ne hp, Finset.mem_erase, hmem]
            simp [hp]
        · rw [Finset.card_erase_of_mem hin, hcard]
          simp [Counted.drop, ho]
      · refine ⟨owners, fun p => ?_, by simp [Counted.drop, ho, hy, hcard]⟩
        by_cases hp : p = o
        · subst hp
          simp [hmem, ho, Ne.symm hy]
        · rw [drop_holds_of_ne hp, hmem]

theorem Exact.move (h : c.Exact) (hne : o ≠ o') (ho' : c.holds o' = none) :
    (c.move o o').Exact := by
  cases ho : c.holds o with
  | none =>
      have hsame : (c.move o o').holds = c.holds := by
        funext p
        by_cases hp' : p = o'
        · rw [hp', move_holds_self, ho, ho']
        · by_cases hp : p = o
          · rw [hp, move_holds_source hne, ho]
          · exact move_holds_of_ne hp hp'
      intro y
      rw [hsame]
      exact h y
  | some x =>
      intro y
      obtain ⟨owners, hmem, hcard⟩ := h y
      by_cases hy : y = x
      · subst hy
        have hin : o ∈ owners := (hmem o).mpr ho
        have hnew : o' ∉ owners.erase o := by simp [hmem, ho']
        refine ⟨insert o' (owners.erase o), fun p => ?_, ?_⟩
        · by_cases hp' : p = o'
          · simp [hp', ho]
          · by_cases hp : p = o
            · simp [hp, hne, move_holds_source hne]
            · rw [move_holds_of_ne hp hp', Finset.mem_insert, Finset.mem_erase, hmem]
              simp [hp, hp']
        · rw [Finset.card_insert_of_notMem hnew, Finset.card_erase_add_one hin, hcard]
          rfl
      · refine ⟨owners, fun p => ?_, hcard⟩
        by_cases hp' : p = o'
        · simp [hp', hmem, ho, ho', Ne.symm hy]
        · by_cases hp : p = o
          · simp [hp, hmem, ho, move_holds_source hne, Ne.symm hy]
          · rw [move_holds_of_ne hp hp', hmem]

/-- The last owner releases, and nobody else does. -/
theorem Exact.released_iff (h : c.Exact) :
    (c.drop o).2 = some x ↔ c.holds o = some x ∧ ¬ (c.drop o).1.Held x := by
  cases ho : c.holds o with
  | none => simp [Counted.drop, ho]
  | some y =>
      obtain ⟨owners, hmem, hcard⟩ := h.drop o y
      have hcount : (c.drop o).1.strong y = c.strong y - 1 := by simp [Counted.drop, ho]
      have hnone : c.strong y - 1 = 0 ↔ ¬ (c.drop o).1.Held y := by
        rw [← hcount, ← hcard, Finset.card_eq_zero, Finset.eq_empty_iff_forall_notMem]
        simp only [hmem, Held, not_exists]
      have hdrop : (c.drop o).2 = if c.strong y - 1 = 0 then some y else none := by
        simp [Counted.drop, ho]
      rw [hdrop]
      constructor
      · intro heq
        split at heq
        · next hzero =>
            cases heq
            exact ⟨rfl, hnone.mp hzero⟩
        · cases heq
      · rintro ⟨heq, hfree⟩
        cases heq
        rw [if_pos (hnone.mpr hfree)]

/-- What is held after an owner has let go: all that was held, less what was released. -/
theorem Exact.held_drop (h : c.Exact) :
    (c.drop o).1.Held y ↔ c.Held y ∧ (c.drop o).2 ≠ some y := by
  constructor
  · intro hheld
    obtain ⟨p, hp⟩ := hheld
    have hpo : p ≠ o := by
      rintro rfl
      rw [drop_holds_self] at hp
      cases hp
    refine ⟨⟨p, by rw [← hp, drop_holds_of_ne hpo]⟩, fun hrel => ?_⟩
    exact (h.released_iff.mp hrel).2 ⟨p, hp⟩
  · rintro ⟨⟨p, hp⟩, hrel⟩
    by_cases hpo : p = o
    · subst hpo
      by_contra hfree
      exact hrel (h.released_iff.mpr ⟨hp, hfree⟩)
    · exact ⟨p, by rw [drop_holds_of_ne hpo, hp]⟩

end Counted

end LiteXmr
