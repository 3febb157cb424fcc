/-
LiteXmr.Stratum.LineTheorems — lines that are not JSON.

`mining_loop` warns about a line that it cannot parse and goes on. Two things can
come between. The line is handed to the native parser first, which has no bound on
the nesting of what it reads and may use up the stack (`NestsTooDeeply`). And the
warning quotes the first 120 bytes of the line, which panics when these end inside
a character (`CutsWarning`).

`robust_lines_iff` — in a run without such lines, and in no other, the loop never
panics, every unparseable line leaves the client as it was, and the run without
these lines ends in the same state with the same trace. `cut_line_panics` is a run
with one.
-/
import LiteXmr.Stratum.ClientTheorems

namespace LiteXmr.Stratum

open Lts

/-- The step reads in `mining_loop` a line that `parse_json_line` refuses. -/
def isUnparseable (config : ClientConfig) (c : Client) (i : ClientInput) : Bool :=
  match c.phase, i with
  | .mining _ _, .read (.line line) =>
      match config.parseLine (Str.trim line) with
      | .error _ => true
      | .ok _ => false
  | _, _ => false

/-- The warning about the line is made, and quotes a part of a character. -/
def CutsWarning (config : ClientConfig) (c : Client) (i : ClientInput) : Prop :=
  ∃ line, i = .read (.line line) ∧ Panics config c line

/-- `mining_loop` hands the line to the native parser, and its stack does not suffice. -/
def NestsTooDeeply (config : ClientConfig) (c : Client) (i : ClientInput) : Prop :=
  ∃ p sid line, c.phase = .mining p sid ∧ i = .read (.line line) ∧ Str.trim line ≠ "" ∧
    config.parseLine (Str.trim line) = .error .overflow

/-- The lines that `mining_loop` does not go on after. -/
def EndsLoop (config : ClientConfig) (c : Client) (i : ClientInput) : Prop :=
  CutsWarning config c i ∨ NestsTooDeeply config c i

/-- What is asked of a run: no panic, unparseable lines skipped, and nothing different
without them. -/
structure RobustLines (config : ClientConfig) (is : List ClientInput) (c : Client)
    (tr : List ClientObs) : Prop where
  no_panic : ∀ js t tr', js <+: is →
    Run (clientStep config) (fun _ _ => True) .start js t tr' → t.phase ≠ .panicked
  skipped : Run (clientStep config)
    (fun c i => isUnparseable config c i = true → clientStep config c i = some (c, []))
    .start is c tr
  same_without : Run (clientStep config) (fun _ _ => True) .start
    (without (clientStep config) (isUnparseable config) .start is) c tr

section

variable {config : ClientConfig} {c c' : Client} {i : ClientInput} {os : List ClientObs}

theorem exists_of_isUnparseable (h : isUnparseable config c i = true) :
    ∃ p sid line e, c.phase = .mining p sid ∧ i = .read (.line line) ∧
      config.parseLine (Str.trim line) = .error e := by
  unfold isUnparseable at h
  split at h
  · next p sid line hp =>
      split at h
      · next e hl => exact ⟨p, sid, line, e, hp, rfl, hl⟩
      · cases h
  · cases h

theorem isUnparseable_line {p : LoginProfile} {sid line : String} {e : ParseFailure}
    (hp : c.phase = .mining p sid) (hl : config.parseLine (Str.trim line) = .error e) :
    isUnparseable config c (.read (.line line)) = true := by
  simp only [isUnparseable, hp, hl]

theorem panicked_of_step {line : String} (hcuts : Panics config c line)
    (hs : clientStep config c (.read (.line line)) = some (c', os)) :
    c' = { c with phase := .panicked } := by
  obtain ⟨⟨p, sid, hp⟩, hwarn, hcut, e, hl⟩ := hcuts
  have hline := miningLine_of_step hp hs
  unfold Client.miningLine at hline
  simp only [hl, if_pos (And.intro hwarn hcut)] at hline
  split at hline
  · next hempty =>
      rw [hempty, cutsCharacter_empty] at hcut
      cases hcut
  · cases hline
    rfl

theorem EndsLoop.isUnparseable (h : EndsLoop config c i) : isUnparseable config c i = true := by
  rcases h with ⟨line, rfl, ⟨p, sid, hp⟩, _, _, e, hl⟩ | ⟨p, sid, line, hp, rfl, _, hl⟩
  · exact isUnparseable_line hp hl
  · exact isUnparseable_line hp hl

/-- Such a line is not skipped. -/
theorem EndsLoop.ne_of_step (h : EndsLoop config c i)
    (hs : clientStep config c i = some (c', os)) : c' ≠ c := by
  rcases h with ⟨line, rfl, hcuts⟩ | ⟨p, sid, line, hp, rfl, hne, hl⟩
  · obtain ⟨p, sid, hp⟩ := hcuts.mining
    obtain rfl := panicked_of_step hcuts hs
    intro heq
    rw [← heq] at hp
    cases hp
  · have hline := miningLine_of_step hp hs
    simp only [Client.miningLine, if_neg hne, hl, Client.abort, Prod.mk.injEq] at hline
    rintro rfl
    rw [← hline.1] at hp
    cases hp

/-- An unparseable line is skipped or ends the loop. -/
theorem unparseable_step (h : isUnparseable config c i = true) (hends : ¬ EndsLoop config c i)
    (hs : clientStep config c i = some (c', os)) : c' = c ∧ os = [] := by
  obtain ⟨p, sid, line, e, hp, rfl, hl⟩ := exists_of_isUnparseable h
  have hline := miningLine_of_step hp hs
  unfold Client.miningLine at hline
  simp only [hl] at hline
  by_cases hempty : Str.trim line = ""
  · rw [if_pos hempty] at hline
    cases hline
    exact ⟨rfl, rfl⟩
  rw [if_neg hempty] at hline
  cases e with
  | overflow => exact absurd (Or.inr ⟨p, sid, line, hp, rfl, hempty, hl⟩) hends
  | json e =>
      by_cases hcuts : config.warnEnabled = true ∧ Client.cutsCharacter (Str.trim line) = true
      · exact absurd (Or.inl ⟨line, rfl, ⟨p, sid, hp⟩, hcuts.1, hcuts.2, e, hl⟩) hends
      · simp only [if_neg hcuts] at hline
        cases hline
        exact ⟨rfl, rfl⟩

/-- Nothing but the warning panics. -/
theorem phase_ne_panicked_step (hc : c.phase ≠ .panicked) (hcut : ¬ CutsWarning config c i)
    (hs : clientStep config c i = some (c', os)) : c'.phase ≠ .panicked := by
  have hmoves := clientMoves_of_step hs
  cases hmoves with
  | panic _ hbad => exact absurd ⟨_, rfl, hbad⟩ hcut
  | @failed p e _ _ _ =>
      obtain ⟨_, _, _, hf⟩ | hf := c.fail_cases p e
      · rw [hf]
        simp
      · rw [hf]
        simp
  | loggedIn _ _ _ _ _ =>
      unfold Client.loggedIn
      simp only
      split <;> simp
  | stop => exact hc
  | watch _ => exact hc
  | send _ => exact hc
  | earlyMessage _ _ _ _ => exact hc
  | message _ _ _ _ => exact hc
  | skip _ _ _ => exact hc
  | _ => simp [Client.finish]

end

/-- The loop is robust against the unparseable lines of a run exactly when the warning
cuts none of them inside a character and none is nested too deeply for the stack. -/
theorem robust_lines_iff (config : ClientConfig) {is : List ClientInput} {c : Client}
    {tr : List ClientObs} (h : Run (clientStep config) (fun _ _ => True) .start is c tr) :
    RobustLines config is c tr ↔
      Run (clientStep config) (fun c i => ¬ CutsWarning config c i ∧ ¬ NestsTooDeeply config c i)
        .start is c tr := by
  refine ⟨fun hrobust => ?_, fun hgood => ?_⟩
  · have hgood : Run (clientStep config) (fun c i => ¬ EndsLoop config c i) .start is c tr := by
      refine hrobust.skipped.mono_steps fun hskipped hs hends => ?_
      rw [hskipped hends.isUnparseable] at hs
      cases hs
      exact hends.ne_of_step (hskipped hends.isUnparseable) rfl
    exact hgood.mono fun _ _ hends => not_or.mp hends
  replace hgood : Run (clientStep config) (fun c i => ¬ EndsLoop config c i) .start is c tr :=
    hgood.mono fun _ _ hends => not_or.mpr hends
  refine ⟨?_, ?_, ?_⟩
  · have halways := h.always_iff (I := fun c _ => c.phase ≠ .panicked)
      (P := fun c _ => c.phase ≠ .panicked) (B := CutsWarning config)
      (fun hp => by cases hp) id (fun hc _ hcut hs => phase_ne_panicked_step hc hcut hs)
      (fun _ _ hcut hs hne => by
        obtain ⟨line, rfl, hcuts⟩ := hcut
        exact hne (by rw [panicked_of_step hcuts hs]))
    exact halways.mpr (hgood.mono fun _ _ hends => ⟨trivial, fun hcut => hends (Or.inl hcut)⟩)
  · refine hgood.mono_steps fun hends hs hline => ?_
    obtain ⟨rfl, rfl⟩ := unparseable_step hline hends hs
    exact hs
  · have hrun := hgood.without (isUnparseable config)
      fun hends hline hs => unparseable_step hline hends hs
    exact hrun.any

/-! ### A line that is skipped and one that is not -/

/-- A session that reads one line after its login. -/
def lineRun (line : String) : List ClientInput :=
  [.check, .connect (.ok ()), .loginWritten (.ok ()), .read (.line loginReplyLine), .sendEvent,
    .read (.line line)]

theorem robust_lines_text :
    ∃ c tr, Run (clientStep sampleConfig) (fun _ _ => True) .start (lineRun "no json") c tr ∧
      RobustLines sampleConfig (lineRun "no json") c tr := by
  have hlogin : Client.cutsCharacter (Str.trim loginReplyLine) = false := by decide +kernel
  have htext : Client.cutsCharacter (Str.trim "no json") = false := by decide
  have hgood : ∀ (c : Client), ∀ i ∈ lineRun "no json",
      ¬ CutsWarning sampleConfig c i ∧ ¬ NestsTooDeeply sampleConfig c i := by
    intro c i hi
    refine ⟨fun hcuts => ?_, fun hdeep => ?_⟩
    · obtain ⟨line, rfl, hcut⟩ := hcuts
      have hcut := hcut.cuts
      simp only [lineRun, List.mem_cons, List.not_mem_nil, or_false, reduceCtorEq, false_or,
        ClientInput.read.injEq, ReadResult.line.injEq] at hi
      obtain rfl | rfl := hi
      · rw [hlogin] at hcut
        cases hcut
      · rw [htext] at hcut
        cases hcut
    · obtain ⟨_, _, line, _, _, _, hl⟩ := hdeep
      exact parseLine_ne_overflow (by simp [sampleConfig]) _ hl
  have hexec : (exec (clientStep sampleConfig) .start (lineRun "no json")).any
      (fun _ => true) = true := by decide +kernel
  obtain ⟨c, tr, hrun, -⟩ := run_of_exec_test (p := fun _ _ => true) hexec hgood
  exact ⟨c, tr, hrun.any, (robust_lines_iff sampleConfig hrun.any).mpr hrun⟩

/-- A letter and thirty characters of four bytes. -/
def cutLine : String := String.ofList ('a' :: List.replicate 30 '😀')

theorem cut_line_panics :
    ∃ c tr, Run (clientStep sampleConfig) (fun _ _ => True) .start (lineRun cutLine) c tr ∧
      c.phase = .panicked ∧ ¬ RobustLines sampleConfig (lineRun cutLine) c tr := by
  have hexec : (exec (clientStep sampleConfig) .start (lineRun cutLine)).any
      (fun r => decide (r.1.phase = .panicked)) = true := by decide +kernel
  obtain ⟨c, tr, hrun, hphase⟩ := anyRun_of_exec_test
    (p := fun (c : Client) (_ : List ClientObs) => decide (c.phase = .panicked)) hexec
  have hphase : c.phase = .panicked := of_decide_eq_true hphase
  exact ⟨c, tr, hrun, hphase, fun hrobust =>
    hrobust.no_panic _ _ _ (List.prefix_refl _) hrun hphase⟩

end LiteXmr.Stratum
