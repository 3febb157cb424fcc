/-
LiteXmr.Lib.Stride — searching a range with several workers that step
through it by the number of workers, on a counter that wraps around.

Worker `w < T` starts at `w` and adds `T` modulo `N` (`pos`), and is back at
`w` after a `period` of strides, not before. Two questions have exact answers.

* Without an upper limit, two workers never meet exactly when `T` divides
  `N` (`orbits_disjoint_iff`): the residue modulo `T` survives the
  wrap-around only then, and otherwise worker `0` reaches the start of
  worker `gcd T N`.
* With the range `[0, R)` a worker stops at the first position outside, and
  it works in groups of `g` positions: a group that is not complete when
  the worker stops is dropped. `Taken` are the positions of complete
  groups. Then the workers take different positions exactly when
  `R ≤ g * (N - T)` (`taken_disjoint_iff`), and between them they take
  every position of the range exactly once exactly when `g * T` divides
  `R`, or in the mirror case `g * (N - T) = R` (`taken_cover_iff`).

`count_flatMap_range_eq_one_iff` reads "exactly once" as a count over the
lists of all workers.

The mirror case is a stride so long that adding it is stepping back by
`N - T`. The two closed forms of `pos` along a run, `pos_of_le` for a
stride that cannot wrap inside the range and `pos_of_lt` for one that must,
carry everything else.
-/
import Mathlib.Tactic.Common
import Mathlib.Data.Int.GCD

namespace LiteXmr.Stride

/-- Position after `j` strides from `c`. -/
def pos (N T c j : Nat) : Nat := (c + j * T) % N

theorem pos_zero {N T c : Nat} (hc : c < N) : pos N T c 0 = c := by
  simp [pos, Nat.mod_eq_of_lt hc]

theorem pos_succ (N T c j : Nat) : pos N T c (j + 1) = (pos N T c j + T) % N := by
  rw [pos, pos, Nat.mod_add_mod, Nat.succ_mul, Nat.add_assoc]

theorem pos_pos (N T c a b : Nat) : pos N T (pos N T c a) b = pos N T c (a + b) := by
  rw [pos, pos, pos, Nat.mod_add_mod, Nat.add_mul, Nat.add_assoc]

/-- The number of strides after which a worker is back where it was. -/
def period (N T : Nat) : Nat := N / T.gcd N

/-- A worker comes back after whole periods only. -/
theorem period_dvd {N T c j : Nat} (hc : c < N) (h : pos N T c j = c) :
    period N T ∣ j := by
  have hgcd : 0 < T.gcd N := Nat.gcd_pos_of_pos_right T (by omega)
  have hdvd : N ∣ j * T := by
    have hsplit := Nat.div_add_mod (c + j * T) N
    rw [show (c + j * T) % N = c from h] at hsplit
    exact ⟨(c + j * T) / N, by omega⟩
  have hcoprime : (period N T).Coprime (T / T.gcd N) :=
    (Nat.coprime_div_gcd_div_gcd hgcd).symm
  refine hcoprime.dvd_of_dvd_mul_right ?_
  rw [period, ← Nat.mul_div_assoc j (Nat.gcd_dvd_left T N)]
  exact Nat.div_dvd_div (Nat.gcd_dvd_right T N) hdvd

/-! ## Without a limit -/

/-- When the stride divides the modulus, wrapping keeps the residue. -/
theorem pos_mod_of_dvd {N T : Nat} (h : T ∣ N) (c j : Nat) :
    pos N T c j % T = c % T := by
  rw [pos, Nat.mod_mod_of_dvd _ h, Nat.add_mul_mod_self_right]

/-- Workers on a free-running counter never meet exactly when their number
divides the modulus. -/
theorem orbits_disjoint_iff {N T : Nat} (hT : 0 < T) (hTN : T < N) :
    (∀ w < T, ∀ w' < T, w ≠ w' → ∀ j j', pos N T w j ≠ pos N T w' j') ↔ T ∣ N := by
  constructor
  · intro h
    by_contra hdvd
    have hle : T.gcd N ≤ T := Nat.gcd_le_left N hT
    have hne : T.gcd N ≠ T := fun he => hdvd (he ▸ Nat.gcd_dvd_right T N)
    have hpos : 0 < T.gcd N := Nat.gcd_pos_of_pos_left N hT
    obtain ⟨m, _, hm⟩ := Nat.exists_mul_mod_eq_gcd (n := T) (k := N) (by omega)
    apply h 0 hT (T.gcd N) (by omega) (by omega) m 0
    rw [pos_zero (by omega), pos, Nat.zero_add, Nat.mul_comm, hm]
  · intro hdvd w hw w' hw' hne j j' heq
    have := congrArg (· % T) heq
    simp only [pos_mod_of_dvd hdvd, Nat.mod_eq_of_lt hw, Nat.mod_eq_of_lt hw'] at this
    exact hne this

/-! ## With a limit -/

/-- The first `k` positions lie in the range. -/
def Runs (N R T c k : Nat) : Prop := ∀ i < k, pos N T c i < R

theorem Runs.mono {N R T c k k' : Nat} (h : Runs N R T c k) (hk : k' ≤ k) :
    Runs N R T c k' :=
  fun i hi => h i (by omega)

/-- The positions of complete groups. -/
def Taken (N R g T c v : Nat) : Prop :=
  ∃ q j, j < g * q ∧ Runs N R T c (g * q) ∧ pos N T c j = v

section Limit

variable {N R T c : Nat}

/-- A stride that cannot wrap inside the range moves straight up. -/
theorem pos_of_le (hc : c < N) (hT : T ≤ N - R) (hRN : R ≤ N) {k : Nat}
    (h : Runs N R T c k) : ∀ j < k, pos N T c j = c + j * T := by
  intro j
  induction j with
  | zero => intro _; rw [pos_zero hc]; omega
  | succ j ih =>
      intro hj
      have hprev := ih (by omega)
      have hlt := h j (by omega)
      rw [pos_succ, hprev, Nat.mod_eq_of_lt (by omega), Nat.succ_mul, Nat.add_assoc]

theorem runs_iff_of_le (hc : c < N) (hT : T ≤ N - R) (hRN : R ≤ N) {k : Nat} :
    Runs N R T c (k + 1) ↔ c + k * T < R := by
  constructor
  · intro h
    have := h k (by omega)
    rwa [pos_of_le hc hT hRN h k (by omega)] at this
  · intro h i hi
    have hle : i * T ≤ k * T := Nat.mul_le_mul_right T (by omega)
    rw [pos, Nat.mod_eq_of_lt (by omega)]
    omega

/-- A stride that must wrap inside the range steps back by `N - T`. -/
theorem pos_of_lt (hc : c < N) (hT : N - R < T) (hTN : T < N) (hN : 2 * R ≤ N) {k : Nat}
    (h : Runs N R T c k) : ∀ j < k, j * (N - T) ≤ c ∧ pos N T c j = c - j * (N - T) := by
  intro j
  induction j with
  | zero => intro _; rw [pos_zero hc]; omega
  | succ j ih =>
      intro hj
      obtain ⟨hle, hprev⟩ := ih (by omega)
      have hlt := h j (by omega)
      have hnext := h (j + 1) hj
      rw [pos_succ, hprev] at hnext ⊢
      rw [hprev] at hlt
      have hback : N ≤ c - j * (N - T) + T := by
        by_contra hno
        rw [Nat.mod_eq_of_lt (by omega)] at hnext
        omega
      rw [Nat.mod_eq_sub_mod hback, Nat.mod_eq_of_lt (by omega), Nat.succ_mul]
      omega

theorem runs_iff_of_lt (hc : c < N) (hT : N - R < T) (hTN : T < N) (hN : 2 * R ≤ N)
    {k : Nat} : Runs N R T c (k + 1) ↔ c < R ∧ k * (N - T) ≤ c := by
  constructor
  · intro h
    have h0 := h 0 (by omega)
    rw [pos_zero hc] at h0
    exact ⟨h0, (pos_of_lt hc hT hTN hN h k (by omega)).1⟩
  · rintro ⟨hcR, hk⟩ i hi
    have hle : i * (N - T) ≤ k * (N - T) := Nat.mul_le_mul_right _ (by omega)
    have hsum : c + i * T = c - i * (N - T) + i * N := by
      have : i * T + i * (N - T) = i * N := by
        rw [← Nat.mul_add]
        congr 1
        omega
      omega
    rw [pos, hsum, Nat.add_mul_mod_self_right, Nat.mod_eq_of_lt (by omega)]
    omega

/-- A position is visited at most once along a run. -/
theorem pos_injOn (hc : c < N) (hT : 0 < T) (hTN : T < N) (hN : 2 * R ≤ N) {k : Nat}
    (h : Runs N R T c k) {i j : Nat} (hi : i < k) (hj : j < k)
    (heq : pos N T c i = pos N T c j) : i = j := by
  by_cases hwrap : T ≤ N - R
  · rw [pos_of_le hc hwrap (by omega) h i hi, pos_of_le hc hwrap (by omega) h j hj] at heq
    exact Nat.eq_of_mul_eq_mul_right hT (by omega)
  · obtain ⟨hi', hposi⟩ := pos_of_lt hc (by omega) hTN hN h i hi
    obtain ⟨hj', hposj⟩ := pos_of_lt hc (by omega) hTN hN h j hj
    rw [hposi, hposj] at heq
    exact Nat.eq_of_mul_eq_mul_right (by omega : 0 < N - T) (by omega)

/-- A run inside the range is no longer than the range. -/
theorem Runs.le (hc : c < N) (hT : 0 < T) (hTN : T < N) (hN : 2 * R ≤ N) {k : Nat}
    (h : Runs N R T c k) : k ≤ R := by
  obtain rfl | ⟨k, rfl⟩ : k = 0 ∨ ∃ k', k = k' + 1 := by
    cases k with
    | zero => exact Or.inl rfl
    | succ k => exact Or.inr ⟨k, rfl⟩
  · omega
  · by_cases hwrap : T ≤ N - R
    · have hlast := (runs_iff_of_le hc hwrap (by omega)).mp h
      have : k * 1 ≤ k * T := Nat.mul_le_mul_left k hT
      omega
    · obtain ⟨hcR, hlast⟩ := (runs_iff_of_lt hc (by omega) hTN hN).mp h
      have : k * 1 ≤ k * (N - T) := Nat.mul_le_mul_left k (by omega)
      omega

/-- The groups a worker completes before it stops at its first position
outside the range. -/
theorem taken_iff_of_stop {g q r : Nat} (hr : r < g)
    (hruns : Runs N R T c (g * q + r)) (hstop : R ≤ pos N T c (g * q + r)) (v : Nat) :
    Taken N R g T c v ↔ ∃ j < g * q, pos N T c j = v := by
  constructor
  · rintro ⟨q', j, hj, hruns', hv⟩
    refine ⟨j, Nat.lt_of_lt_of_le hj (Nat.mul_le_mul_left g ?_), hv⟩
    by_contra hlt
    have hstep : g * q + g ≤ g * q' := by
      have := Nat.mul_le_mul_left g (show q + 1 ≤ q' by omega)
      rwa [Nat.mul_succ] at this
    have := hruns' (g * q + r) (by omega)
    omega
  · rintro ⟨j, hj, hv⟩
    exact ⟨q, j, hj, hruns.mono (by omega), hv⟩

end Limit

section Groups

variable {N R g T : Nat}

/-- `Taken` for a stride that cannot wrap: the position and the last one of
its group are on the way up. -/
theorem taken_iff_of_le {w v : Nat} (hw : w < N) (hT : T ≤ N - R) (hRN : R ≤ N) :
    Taken N R g T w v ↔ ∃ q j, j < g * q ∧ w + (g * q - 1) * T < R ∧ v = w + j * T := by
  constructor
  · rintro ⟨q, j, hj, hruns, rfl⟩
    have hpred : g * q = g * q - 1 + 1 := by omega
    refine ⟨q, j, hj, ?_, pos_of_le hw hT hRN hruns j hj⟩
    rw [hpred] at hruns
    exact (runs_iff_of_le hw hT hRN).mp hruns
  · rintro ⟨q, j, hj, hlt, rfl⟩
    have hpred : g * q = g * q - 1 + 1 := by omega
    have hruns : Runs N R T w (g * q) := by
      rw [hpred]
      exact (runs_iff_of_le hw hT hRN).mpr hlt
    exact ⟨q, j, hj, hruns, pos_of_le hw hT hRN hruns j hj⟩

/-- `Taken` for a stride that must wrap: the group lies on the way down. -/
theorem taken_iff_of_lt {w v : Nat} (hw : w < N) (hT : N - R < T) (hTN : T < N)
    (hN : 2 * R ≤ N) :
    Taken N R g T w v ↔
      ∃ q j, j < g * q ∧ w < R ∧ (g * q - 1) * (N - T) ≤ w ∧ v + j * (N - T) = w := by
  constructor
  · rintro ⟨q, j, hj, hruns, rfl⟩
    have hpred : g * q = g * q - 1 + 1 := by omega
    have hlast := hruns
    rw [hpred] at hlast
    obtain ⟨hwR, hle⟩ := (runs_iff_of_lt hw hT hTN hN).mp hlast
    obtain ⟨hjle, hpos⟩ := pos_of_lt hw hT hTN hN hruns j hj
    exact ⟨q, j, hj, hwR, hle, by omega⟩
  · rintro ⟨q, j, hj, hwR, hle, hv⟩
    have hpred : g * q = g * q - 1 + 1 := by omega
    have hruns : Runs N R T w (g * q) := by
      rw [hpred]
      exact (runs_iff_of_lt hw hT hTN hN).mpr ⟨hwR, hle⟩
    obtain ⟨_, hpos⟩ := pos_of_lt hw hT hTN hN hruns j hj
    exact ⟨q, j, hj, hruns, by omega⟩

/-- On the way down with `g` steps longer than the range, only the workers
of the top step complete a group, and exactly one. -/
theorem last_step_of_taken {w v : Nat} (hw : w < N) (hT : N - R < T) (hTN : T < N)
    (hN : 2 * R ≤ N) (hlong : R ≤ g * (N - T)) (h : Taken N R g T w v) :
    w < R ∧ (g - 1) * (N - T) ≤ w ∧ ∃ j < g, v + j * (N - T) = w := by
  obtain ⟨q, j, hj, hwR, hle, hv⟩ := (taken_iff_of_lt hw hT hTN hN).mp h
  have hlt : g * q - 1 < g :=
    Nat.lt_of_mul_lt_mul_right (a := N - T) (by omega)
  have hq : q = 1 := by
    rcases Nat.lt_trichotomy q 1 with h0 | h1 | h2
    · simp [show q = 0 by omega] at hj
    · exact h1
    · have := Nat.mul_le_mul_left g (show 2 ≤ q by omega)
      omega
  subst hq
  rw [Nat.mul_one] at hj hle
  exact ⟨hwR, hle, j, hj, hv⟩

/-- Two workers of the top step on the same position are the same worker. -/
theorem eq_of_last_step {d w w' v j j' : Nat} (hg : 0 < g)
    (hw : w < g * d) (hw' : w' < g * d) (hlo : (g - 1) * d ≤ w) (hlo' : (g - 1) * d ≤ w')
    (hv : v + j * d = w) (hv' : v + j' * d = w') : w = w' := by
  have hgd : g * d = (g - 1) * d + d := by
    rw [← Nat.succ_mul]
    congr 1
    omega
  rcases Nat.lt_trichotomy j j' with h | h | h
  · have := Nat.mul_le_mul_right d (show j + 1 ≤ j' by omega)
    rw [Nat.succ_mul] at this
    omega
  · subst h
    omega
  · have := Nat.mul_le_mul_right d (show j' + 1 ≤ j by omega)
    rw [Nat.succ_mul] at this
    omega

/-- Workers with a limit take different positions exactly when `g` steps
back are at least the range. -/
theorem taken_disjoint_iff (hg : 2 ≤ g) (hTN : T < N) (hN : 2 * R ≤ N) :
    (∀ w < T, ∀ w' < T, w ≠ w' → ∀ v, ¬ (Taken N R g T w v ∧ Taken N R g T w' v)) ↔
      R ≤ g * (N - T) := by
  constructor
  · intro h
    by_contra hshort
    have hd : 0 < N - T := by omega
    have hone : 1 * (N - T) ≤ g * (N - T) := Nat.mul_le_mul_right _ (by omega)
    have hgd : g * (N - T) = (g - 1) * (N - T) + (N - T) := by
      rw [← Nat.succ_mul]
      congr 1
      omega
    -- worker `g d` passes the start of worker `(g - 1) d`
    refine h (g * (N - T)) (by omega) ((g - 1) * (N - T)) (by omega) (by omega)
      ((g - 1) * (N - T)) ⟨?_, ?_⟩
    · refine (taken_iff_of_lt (by omega) (by omega) hTN hN).mpr
        ⟨1, 1, by omega, by omega, ?_, by omega⟩
      rw [Nat.mul_one]
      omega
    · refine (taken_iff_of_lt (by omega) (by omega) hTN hN).mpr
        ⟨1, 0, by omega, by omega, ?_, by omega⟩
      rw [Nat.mul_one]
  · rintro hlong w hw w' hw' hne v ⟨ht, ht'⟩
    by_cases hwrap : T ≤ N - R
    · obtain ⟨_, j, _, _, hv⟩ := (taken_iff_of_le (by omega) hwrap (by omega)).mp ht
      obtain ⟨_, j', _, _, hv'⟩ := (taken_iff_of_le (by omega) hwrap (by omega)).mp ht'
      apply hne
      have hmod := congrArg (· % T) (hv.symm.trans hv')
      simpa [Nat.mod_eq_of_lt hw, Nat.mod_eq_of_lt hw'] using hmod
    · obtain ⟨hwR, hlo, j, _, hv⟩ :=
        last_step_of_taken (by omega) (by omega) hTN hN hlong ht
      obtain ⟨hwR', hlo', j', _, hv'⟩ :=
        last_step_of_taken (by omega) (by omega) hTN hN hlong ht'
      exact hne (eq_of_last_step (by omega) (by omega) (by omega) hlo hlo' hv hv')

/-- Every position of the range is taken by exactly one worker. -/
def Covers (N R g T : Nat) : Prop :=
  ∀ v < R, ∃ w < T, Taken N R g T w v ∧ ∀ w' < T, w' ≠ w → ¬ Taken N R g T w' v

/-- On the way up, a worker that leaves nothing behind visits a multiple of
`g` positions. -/
theorem dvd_of_covers (hTN : T < N) (hN : 2 * R ≤ N) (hwrap : T ≤ N - R)
    (h : Covers N R g T) {w : Nat} (hw : w < T) (hwR : w < R) :
    g ∣ (R - 1 - w) / T + 1 := by
  have hdiv := Nat.div_add_mod (R - 1 - w) T
  have hmod := Nat.mod_lt (R - 1 - w) (show 0 < T by omega)
  generalize hm : (R - 1 - w) / T = m at hdiv ⊢
  rw [Nat.mul_comm T m] at hdiv
  -- the last position of worker `w`
  obtain ⟨u, hu, ht, _⟩ := h (w + m * T) (by omega)
  obtain ⟨q, j, hj, hlast, hv⟩ := (taken_iff_of_le (by omega) hwrap (by omega)).mp ht
  have huw : u = w := by
    have hres := congrArg (· % T) hv
    simp only [Nat.add_mul_mod_self_right, Nat.mod_eq_of_lt hw, Nat.mod_eq_of_lt hu] at hres
    exact hres.symm
  subst huw
  have hjm : j = m := Nat.eq_of_mul_eq_mul_right (show 0 < T by omega) (by omega)
  have hle : g * q - 1 < m + 1 := by
    apply Nat.lt_of_mul_lt_mul_right (a := T)
    rw [Nat.succ_mul]
    omega
  exact ⟨q, by omega⟩

theorem dvd_of_covers_of_le (hg : 2 ≤ g) (hT : 0 < T) (hTN : T < N) (hN : 2 * R ≤ N)
    (hwrap : T ≤ N - R) (hR : 0 < R) (h : Covers N R g T) : g * T ∣ R := by
  have hfirst := dvd_of_covers hTN hN hwrap h (w := 0) hT hR
  rw [Nat.sub_zero] at hfirst
  have hTR : T < R := by
    by_contra hlt
    rw [Nat.div_eq_of_lt (by omega)] at hfirst
    have := Nat.le_of_dvd (by omega) hfirst
    omega
  have hlast := dvd_of_covers hTN hN hwrap h (w := T - 1) (by omega) (by omega)
  have hdiv := Nat.div_add_mod R T
  have hmod := Nat.mod_lt R hT
  generalize ha : R / T = a at hdiv
  have hapos : 0 < a := by
    rcases Nat.eq_zero_or_pos a with rfl | h0
    · omega
    · exact h0
  -- the last worker makes `R / T` visits, the first one `⌈R / T⌉`
  have hlast' : (R - 1 - (T - 1)) / T + 1 = a := by
    rw [show R - 1 - (T - 1) = R - T by omega, ← Nat.div_eq_sub_div hT (by omega), ha]
  rw [hlast'] at hlast
  by_cases hrem : R % T = 0
  · obtain ⟨b, rfl⟩ := hlast
    exact ⟨b, by rw [← hdiv, hrem, Nat.add_zero, Nat.mul_left_comm, Nat.mul_assoc]⟩
  · have hceil : (R - 1) / T = a := by
      apply Nat.div_eq_of_lt_le
      · rw [Nat.mul_comm]
        omega
      · rw [Nat.succ_mul, Nat.mul_comm a T]
        omega
    rw [hceil] at hfirst
    have := (Nat.dvd_add_right hlast).mp hfirst
    have := Nat.le_of_dvd (by omega) this
    omega

theorem eq_of_covers_of_lt (hg : 2 ≤ g) (hTN : T < N) (hN : 2 * R ≤ N)
    (hwrap : N - R < T) (h : Covers N R g T) : g * (N - T) = R := by
  have hd : 0 < N - T := by omega
  have hgd : g * (N - T) = (g - 1) * (N - T) + (N - T) := by
    rw [← Nat.succ_mul]
    congr 1
    omega
  have hgd' : (g - 1) * (N - T) = (g - 2) * (N - T) + (N - T) := by
    rw [← Nat.succ_mul]
    congr 1
    omega
  rcases Nat.lt_trichotomy (g * (N - T)) R with hlt | heq | hgt
  · -- position `d` is taken both from `(g - 1) d` and from `g d`
    exfalso
    have htake : ∀ k, k = g - 1 ∨ k = g → k * (N - T) < R →
        Taken N R g T (k * (N - T)) (N - T) := by
      intro k hk hkR
      refine (taken_iff_of_lt (by omega) hwrap hTN hN).mpr
        ⟨1, k - 1, by omega, hkR, Nat.mul_le_mul_right _ (by omega), ?_⟩
      rw [Nat.add_comm, ← Nat.succ_mul]
      congr 1
      omega
    obtain ⟨w, _, _, huniq⟩ := h (N - T) (by omega)
    have hfst := htake (g - 1) (Or.inl rfl) (by omega)
    have hsnd := htake g (Or.inr rfl) hlt
    have h1 : (g - 1) * (N - T) = w := by
      by_contra hne
      exact huniq _ (by omega) hne hfst
    have h2 : g * (N - T) = w := by
      by_contra hne
      exact huniq _ (by omega) hne hsnd
    omega
  · exact heq
  · -- position `d - 1` is taken by nobody
    exfalso
    obtain ⟨w, hw, ht, _⟩ := h (N - T - 1) (by omega)
    obtain ⟨hwR, hlo, j, hj, hv⟩ :=
      last_step_of_taken (by omega) hwrap hTN hN (by omega) ht
    have hjg : j = g - 1 := by
      have hstep : (g - 1) * (N - T) < (j + 1) * (N - T) := by
        rw [Nat.succ_mul]
        omega
      have := Nat.lt_of_mul_lt_mul_right hstep
      omega
    subst hjg
    omega

theorem covers_of_dvd (hg : 2 ≤ g) (hT : 0 < T) (hN : 2 * R ≤ N) (hdvd : g * T ∣ R) :
    Covers N R g T := by
  obtain ⟨a, rfl⟩ := hdvd
  intro v hv
  have ha : 0 < a := by
    rcases Nat.eq_zero_or_pos a with rfl | h
    · simp at hv
    · exact h
  have hTR : 1 * T ≤ g * T * a := by
    rw [Nat.mul_right_comm]
    exact Nat.mul_le_mul_right T (Nat.mul_pos (by omega) ha)
  have hmod := Nat.mod_lt v hT
  have hdiv := Nat.div_add_mod v T
  rw [Nat.mul_comm T] at hdiv
  have hgroups : g * T * a = (g * a - 1) * T + T := by
    rw [← Nat.succ_mul, Nat.mul_right_comm]
    congr 1
    have := Nat.mul_pos (show 0 < g by omega) ha
    omega
  refine ⟨v % T, hmod, ?_, ?_⟩
  · refine (taken_iff_of_le (by omega) (by omega) (by omega)).mpr
      ⟨a, v / T, ?_, by omega, by omega⟩
    apply Nat.div_lt_of_lt_mul
    rw [Nat.mul_comm T, Nat.mul_right_comm]
    exact hv
  · intro w' hw' hne ht
    obtain ⟨_, j, _, _, hvj⟩ := (taken_iff_of_le (by omega) (by omega) (by omega)).mp ht
    apply hne
    rw [hvj, Nat.add_mul_mod_self_right, Nat.mod_eq_of_lt hw']

theorem covers_of_eq (hg : 2 ≤ g) (hTN : T < N) (hN : 2 * R ≤ N)
    (heq : g * (N - T) = R) : Covers N R g T := by
  intro v hv
  have hd : 0 < N - T := by omega
  have hgd : g * (N - T) = (g - 1) * (N - T) + (N - T) := by
    rw [← Nat.succ_mul]
    congr 1
    omega
  have hwrap : N - R < T := by
    have : 1 * (N - T) < g * (N - T) := Nat.mul_lt_mul_of_pos_right (by omega) hd
    omega
  have hmod := Nat.mod_lt v hd
  have hdiv := Nat.div_add_mod v (N - T)
  rw [Nat.mul_comm (N - T)] at hdiv
  have hq : v / (N - T) < g := by
    apply Nat.div_lt_of_lt_mul
    rw [Nat.mul_comm]
    omega
  generalize v / (N - T) = k at hdiv hq
  have hsplit : (g - 1) * (N - T) = (g - 1 - k) * (N - T) + k * (N - T) := by
    rw [← Nat.add_mul]
    congr 1
    omega
  refine ⟨(g - 1) * (N - T) + v % (N - T), by omega, ?_, ?_⟩
  · exact (taken_iff_of_lt (by omega) hwrap hTN hN).mpr
      ⟨1, g - 1 - k, by omega, by omega, by rw [Nat.mul_one]; omega, by omega⟩
  · intro w' hw' hne ht
    obtain ⟨hwR, hlo, j, _, hvj⟩ :=
      last_step_of_taken (by omega) hwrap hTN hN (by omega) ht
    exact hne (eq_of_last_step (by omega) (by omega) (by omega) hlo (by omega) hvj
      (show v + (g - 1 - k) * (N - T) = _ by omega))

/-- Workers with a limit take every position of the range exactly once
exactly when a whole number of rounds of complete groups fills the range. -/
theorem taken_cover_iff (hg : 2 ≤ g) (hT : 0 < T) (hTN : T < N) (hN : 2 * R ≤ N)
    (hR : 0 < R) : Covers N R g T ↔ g * T ∣ R ∨ g * (N - T) = R := by
  constructor
  · intro h
    by_cases hwrap : T ≤ N - R
    · exact Or.inl (dvd_of_covers_of_le hg hT hTN hN hwrap hR h)
    · exact Or.inr (eq_of_covers_of_lt hg hTN hN (by omega) h)
  · rintro (hdvd | heq)
    · exact covers_of_dvd hg hT hN hdvd
    · exact covers_of_eq hg hTN hN heq

end Groups

/-! ## Counting over the workers -/

/-- When no worker lists a value twice, the value is listed once in all
exactly when one worker lists it and no other does. -/
theorem count_flatMap_range_eq_one_iff {α : Type} [DecidableEq α] {f : Nat → List α}
    {T : Nat} (hnodup : ∀ w < T, (f w).Nodup) (v : α) :
    ((List.range T).flatMap f).count v = 1 ↔
      ∃ w < T, v ∈ f w ∧ ∀ w' < T, w' ≠ w → v ∉ f w' := by
  induction T with
  | zero => simp
  | succ T ih =>
      have hprev := ih fun w hw => hnodup w (by omega)
      have hnone : ((List.range T).flatMap f).count v = 0 ↔ ∀ w < T, v ∉ f w := by
        simp [List.count_eq_zero]
      have hlast : (f T).count v = if v ∈ f T then 1 else 0 :=
        (hnodup T (by omega)).count
      rw [List.range_succ, List.flatMap_append, List.count_append, List.flatMap_singleton,
        hlast]
      by_cases hv : v ∈ f T
      · rw [if_pos hv, Nat.add_eq_right, hnone]
        constructor
        · intro h
          exact ⟨T, by omega, hv, fun w' hw' hne => h w' (by omega)⟩
        · rintro ⟨w, hw, hmem, huniq⟩ w' hw' hmem'
          have hwT : T = w := by
            by_contra hne
            exact huniq T (by omega) hne hv
          exact huniq w' (by omega) (by omega) hmem'
      · rw [if_neg hv, Nat.add_zero, hprev]
        constructor
        · rintro ⟨w, hw, hmem, huniq⟩
          refine ⟨w, by omega, hmem, fun w' hw' hne => ?_⟩
          rcases Nat.lt_succ_iff_lt_or_eq.mp hw' with h | rfl
          · exact huniq w' h hne
          · exact hv
        · rintro ⟨w, hw, hmem, huniq⟩
          rcases Nat.lt_succ_iff_lt_or_eq.mp hw with h | rfl
          · exact ⟨w, h, hmem, fun w' hw' hne => huniq w' (by omega) hne⟩
          · exact absurd hmem hv

end LiteXmr.Stride
