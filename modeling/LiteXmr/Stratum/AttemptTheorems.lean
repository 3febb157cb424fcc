/-
LiteXmr.Stratum.AttemptTheorems — how often the client connects.

`run` and `run_session` are two nested loops: inside a session the profiles
are tried one after the other, without a pause, and between two sessions the
client sleeps. Whatever the pool answers, the attempts between two sleeps are
those of an initial part of the profiles (`attempts_of_round`), so a run
makes at most three attempts for every sleep, and three before the first one
(`attempts_bounded`). Each opens one connection at most, with its own profile, before
the next one is made (`OpensForAttempt`).
-/
import LiteXmr.Stratum.ClientTheorems

namespace LiteXmr.Stratum

open Lts

/-! ## Attempts and connections of a trace -/

def ClientObs.attempted : ClientObs → Option LoginProfile
  | .attempt profile => some profile
  | _ => none

def ClientObs.connected : ClientObs → Option LoginProfile
  | .opened profile => some profile
  | _ => none

def attempts (tr : List ClientObs) : List LoginProfile := tr.filterMap ClientObs.attempted

def opened (tr : List ClientObs) : List LoginProfile := tr.filterMap ClientObs.connected

/-- The profiles in the order of `run_session`. -/
def profiles : List LoginProfile := [.lite, .xmrigCompat, .minimal]

/-- The profiles up to and with the given one. -/
def LoginProfile.upTo : LoginProfile → List LoginProfile
  | .lite => [.lite]
  | .xmrigCompat => [.lite, .xmrigCompat]
  | .minimal => [.lite, .xmrigCompat, .minimal]

def isWake : ClientInput → Bool
  | .wake => true
  | _ => false

theorem attempts_append (tr os : List ClientObs) :
    attempts (tr ++ os) = attempts tr ++ attempts os := List.filterMap_append

theorem opened_append (tr os : List ClientObs) :
    opened (tr ++ os) = opened tr ++ opened os := List.filterMap_append

theorem LoginProfile.upTo_prefix (p : LoginProfile) : p.upTo <+: profiles := by
  cases p <;> decide

theorem LoginProfile.upTo_next {p next : LoginProfile} (h : p.next = some next) :
    next.upTo = p.upTo ++ [next] := by
  cases p <;> cases h <;> rfl

/-! ## What a step does to them -/

/-- The phases in which the next connection is still to be opened. -/
def Phase.toConnect : Phase → Bool
  | .loopHead | .connecting _ => true
  | _ => false

/-- A step begins a session, opens the connection of an attempt, goes on to the
next profile, or makes neither an attempt nor a connection: the phase is as it was, or the
client is past its connection. -/
inductive AttemptMoves (c c' : Client) (os : List ClientObs) : Prop where
  | first (hp : c.phase = .loopHead) (hp' : c'.phase = .connecting .lite)
      (ha : attempts os = [.lite]) (ho : opened os = [])
  | opened {p : LoginProfile} (hp : c.phase = .connecting p)
      (hp' : c'.phase = .sendingLogin p c.requestId) (ha : attempts os = [])
      (ho : Stratum.opened os = [p])
  | next {p next : LoginProfile} (hp : c.phase.profile = some p) (hnext : p.next = some next)
      (hp' : c'.phase = .connecting next) (ha : attempts os = [next])
      (ho : Stratum.opened os = [])
  | stays (hp : c'.phase = c.phase) (ha : attempts os = []) (ho : Stratum.opened os = [])
  | moves (hpast : c'.phase.toConnect = false)
      (hp : c'.phase.profile = c.phase.profile ∨ c'.phase.profile = none)
      (ha : attempts os = []) (ho : Stratum.opened os = [])

section Step

variable {config : ClientConfig} {c c' : Client} {i : ClientInput} {os : List ClientObs}

theorem attempts_published (h : Handled) : attempts h.published = [] :=
  filterMap_published (fun _ => rfl) h

theorem opened_published (h : Handled) : opened h.published = [] :=
  filterMap_published (fun _ => rfl) h

theorem attemptMoves_fail {p : LoginProfile} (hp : c.phase.profile = some p) (e : Error) :
    AttemptMoves c (c.fail p e).1 (c.fail p e).2 := by
  rcases c.fail_cases p e with ⟨next, hnext, _, hf⟩ | hf
  · rw [hf]
    exact .next hp hnext rfl rfl rfl
  · rw [hf]
    exact .moves rfl (Or.inr rfl) rfl rfl

theorem attemptMoves_loggedIn {p : LoginProfile} {id : UInt64} (hp : c.phase = .awaitingReply p id)
    (config : ClientConfig) (msg : Json) :
    AttemptMoves c (c.loggedIn config p msg).1 (c.loggedIn config p msg).2 := by
  have hphase : (c.loggedIn config p msg).1.phase.toConnect = false ∧
      (c.loggedIn config p msg).1.phase.profile = c.phase.profile := by
    rw [hp]
    cases hk : config.keepalive <;> exact ⟨by simp [Client.loggedIn, hk, Phase.toConnect],
      by simp [Client.loggedIn, hk, Phase.profile]⟩
  exact .moves hphase.1 (Or.inl hphase.2) (attempts_published _) (opened_published _)

theorem attemptMoves_of_step (hi : isWake i = false)
    (hs : clientStep config c i = some (c', os)) : AttemptMoves c c' os := by
  have hfinish : AttemptMoves c c.finish.1 c.finish.2 :=
    .moves rfl (Or.inr rfl) rfl rfl
  cases clientMoves_of_step hs with
  | stop => exact .stays rfl rfl rfl
  | watch _ => exact .stays rfl rfl rfl
  | send _ => exact .stays rfl rfl rfl
  | attempt _ hp _ => exact .first hp rfl rfl rfl
  | leave _ _ _ => exact hfinish
  | opened _ hp => exact .opened hp rfl rfl rfl
  | loginSent _ hp =>
      exact .moves rfl (Or.inl (by rw [hp]; rfl)) rfl rfl
  | loggedIn _ hp _ _ _ => exact attemptMoves_loggedIn hp config _
  | earlyMessage _ _ _ _ =>
      exact .stays rfl (attempts_published _) (opened_published _)
  | message _ _ _ _ => exact .stays rfl (attempts_published _) (opened_published _)
  | skip _ _ _ => exact .stays rfl rfl rfl
  | panic _ _ | overflow _ _ => exact .moves rfl (Or.inr rfl) rfl rfl
  | eof _ _ => exact hfinish
  | shutdown _ _ _ => exact hfinish
  | submit _ hp =>
      exact .moves rfl (Or.inl (by rw [hp]; rfl)) rfl rfl
  | submitted _ hp =>
      exact .moves rfl (Or.inl (by rw [hp]; rfl)) rfl rfl
  | failed _ hf => exact attemptMoves_fail hf.profile _
  | wake _ _ => cases hi

/-- After a sleep the client is at the head of its loop. -/
theorem phase_of_wake (hi : isWake i = true) (hs : clientStep config c i = some (c', os)) :
    c'.phase = .loopHead ∧ os = [] := by
  cases clientMoves_of_step hs with
  | wake _ _ => exact ⟨rfl, rfl⟩
  | failed _ hf => cases hf <;> cases hi
  | stop | watch _ | send _ | attempt _ _ _ | leave _ _ _ | opened _ _ | loginSent _ _
  | loggedIn _ _ _ _ _ | earlyMessage _ _ _ _ | message _ _ _ _ | skip _ _ _ | panic _ _
  | overflow _ _ | eof _ _ | shutdown _ _ _ | submit _ _ | submitted _ _ => cases hi

end Step

/-! ## A round -/

/-- The attempts since the last sleep, by the phase the client is in. -/
structure InRound (phase : Phase) (made : List LoginProfile) : Prop where
  atHead : phase = .loopHead → made = []
  trying : ∀ p, phase.profile = some p → made = p.upTo
  initial : made <+: profiles

theorem inRound_head : InRound .loopHead [] where
  atHead _ := rfl
  trying _ h := by cases h
  initial := List.nil_prefix

/-- An attempt with `p` goes on. -/
theorem inRound_upTo {phase : Phase} {p : LoginProfile} (hp : phase.profile = some p) :
    InRound phase p.upTo where
  atHead h := by
    rw [h] at hp
    cases hp
  trying q hq := by
    cases hp.symm.trans hq
    rfl
  initial := p.upTo_prefix

/-- A step other than the end of a sleep goes on with the round. -/
theorem inRound_step {config : ClientConfig} {c c' : Client} {i : ClientInput}
    {os : List ClientObs} {made : List LoginProfile} (h : InRound c.phase made)
    (hi : isWake i = false) (hs : clientStep config c i = some (c', os)) :
    InRound c'.phase (made ++ attempts os) := by
  cases attemptMoves_of_step hi hs with
  | first hp hp' ha _ =>
      rw [h.atHead hp, hp', ha]
      exact inRound_upTo (p := .lite) rfl
  | opened hp hp' ha _ =>
      rw [ha, List.append_nil, hp', h.trying _ (by rw [hp]; rfl)]
      exact inRound_upTo rfl
  | next hp hnext hp' ha _ =>
      rw [h.trying _ hp, hp', ha, ← LoginProfile.upTo_next hnext]
      exact inRound_upTo rfl
  | stays hp ha _ =>
      rw [ha, List.append_nil, hp]
      exact h
  | moves hpast hp ha _ =>
      rw [ha, List.append_nil]
      refine ⟨fun hhead => by simp [hhead, Phase.toConnect] at hpast, fun p hsome => ?_,
        h.initial⟩
      rcases hp with hsame | hnone
      · exact h.trying p (hsame ▸ hsome)
      · rw [hnone] at hsome
        cases hsome

/-- Between two sleeps the profiles are tried in their order, each once at most. -/
theorem attempts_of_round {config : ClientConfig} {c c' : Client} {is : List ClientInput}
    {tr : List ClientObs} (hc : c.phase = .loopHead) (his : ∀ i ∈ is, isWake i = false)
    (h : Run (clientStep config) (fun _ _ => True) c is c' tr) :
    InRound c'.phase (attempts tr) := by
  induction h with
  | nil =>
      rw [hc]
      exact inRound_head
  | snoc _ _ hs ih =>
      rw [attempts_append]
      exact inRound_step (ih fun i hi => his i (by simp [hi])) (his _ (by simp)) hs

/-! ## Whole runs -/

/-- The rounds of the run are counted by its sleeps. -/
def RoundsCounted (wakes : Nat) (c : Client) (tr : List ClientObs) : Prop :=
  ∃ before made, attempts tr = before ++ made ∧ before.length ≤ 3 * wakes ∧
    InRound c.phase made

theorem roundsCounted_of_run {config : ClientConfig} {c : Client} {is : List ClientInput}
    {tr : List ClientObs} (h : Run (clientStep config) (fun _ _ => True) .start is c tr) :
    RoundsCounted (is.countP isWake) c tr := by
  induction h with
  | nil => exact ⟨[], [], rfl, Nat.le_refl 0, inRound_head⟩
  | @snoc is c c' tr os i _ _ hs ih =>
      obtain ⟨before, made, hmade, hcount, hround⟩ := ih
      rw [RoundsCounted, attempts_append, hmade, List.countP_append]
      cases hi : isWake i with
      | false =>
          refine ⟨before, made ++ attempts os, List.append_assoc _ _ _, ?_,
            inRound_step hround hi hs⟩
          simpa [List.countP_cons, hi] using hcount
      | true =>
          -- the round ends with the sleep
          obtain ⟨hp, rfl⟩ := phase_of_wake hi hs
          refine ⟨before ++ made, [], by simp [attempts], ?_, hp ▸ inRound_head⟩
          have hlen : made.length ≤ 3 := hround.initial.length_le
          simp only [List.length_append, List.countP_cons, List.countP_nil, hi, if_true]
          omega

/-- The last attempt was one with `p`, and no connection has been opened since. -/
def Pending (p : LoginProfile) (past : List ClientObs) : Prop :=
  ∃ before after, past = before ++ .attempt p :: after ∧ attempts after = [] ∧
    opened after = [] ∧ (opened before).Sublist (attempts before)

/-- A connection is opened for the last attempt, and is the first one since. -/
def OpensForAttempt (past : List ClientObs) : ClientObs → Prop
  | .opened p => Pending p past
  | _ => True

structure OpensOnce (c : Client) (tr : List ClientObs) : Prop where
  justified : Justified OpensForAttempt tr
  sublist : (opened tr).Sublist (attempts tr)
  connecting : ∀ p, c.phase = .connecting p → Pending p tr

section Opened

variable {config : ClientConfig} {c c' : Client} {i : ClientInput} {tr os : List ClientObs}

theorem Pending.append {p : LoginProfile} (h : Pending p tr) (ha : attempts os = [])
    (ho : opened os = []) : Pending p (tr ++ os) := by
  obtain ⟨before, after, rfl, hattempts, hopened, hsub⟩ := h
  refine ⟨before, after ++ os, by simp, ?_, ?_, hsub⟩
  · rw [attempts_append, hattempts, ha]
    rfl
  · rw [opened_append, hopened, ho]
    rfl

/-- The connection of an attempt comes after those of the attempts before. -/
theorem Pending.sublist {p : LoginProfile} (h : Pending p tr) :
    (opened tr ++ [p]).Sublist (attempts tr) := by
  obtain ⟨before, after, rfl, hattempts, hopened, hsub⟩ := h
  have hopen : opened (before ++ .attempt p :: after) = opened before ++ opened after :=
    List.filterMap_append
  have hattempt : attempts (before ++ .attempt p :: after) =
      attempts before ++ p :: attempts after := List.filterMap_append
  rw [hopen, hattempt, hopened, hattempts, List.append_nil]
  exact hsub.append (List.Sublist.refl _)

theorem opened_eq_of_split {pre post : List ClientObs} {p : LoginProfile}
    (hos : os = pre ++ .opened p :: post) : opened os = opened pre ++ p :: opened post := by
  rw [hos, opened_append]
  rfl

theorem attempts_of_split {o : ClientObs} {pre post : List ClientObs}
    (hos : os = pre ++ o :: post) (ha : attempts os = []) : attempts pre = [] := by
  rw [hos, attempts_append, List.append_eq_nil_iff] at ha
  exact ha.1

/-- A step without a connection: it has made the attempt that is connecting, if there is one
that was not connecting before. -/
theorem OpensOnce.quiet (h : OpensOnce c tr) (ho : opened os = [])
    (hconn : ∀ p, c'.phase = .connecting p → Pending p (tr ++ os)) :
    OpensOnce c' (tr ++ os) where
  justified := h.justified.append fun pre o post hos => by
    cases o with
    | opened p =>
        rw [opened_eq_of_split hos] at ho
        simp at ho
    | _ => trivial
  sublist := by
    rw [opened_append, attempts_append, ho, List.append_nil]
    exact h.sublist.trans (List.sublist_append_left _ _)
  connecting := hconn

theorem OpensOnce.attempt (h : OpensOnce c tr) {p : LoginProfile}
    (hp : c'.phase = .connecting p) (ha : attempts os = [p]) (ho : opened os = []) :
    OpensOnce c' (tr ++ os) := by
  refine h.quiet ho fun q hq => ?_
  cases hp.symm.trans hq
  obtain ⟨pre, o, post, rfl, hpre, hattempt, hpost⟩ := List.filterMap_eq_cons_iff.mp ha
  obtain rfl : o = .attempt p := by
    cases o <;> cases hattempt
    rfl
  rw [opened_append, List.append_eq_nil_iff] at ho
  have hnone : attempts pre = [] := List.filterMap_eq_nil_iff.mpr hpre
  refine ⟨tr ++ pre, post, (List.append_assoc ..).symm, hpost, ho.2, ?_⟩
  rw [opened_append, attempts_append, ho.1, hnone, List.append_nil, List.append_nil]
  exact h.sublist

theorem opensOnce_step (h : OpensOnce c tr) (hs : clientStep config c i = some (c', os)) :
    OpensOnce c' (tr ++ os) := by
  cases hi : isWake i with
  | true =>
      obtain ⟨hp, rfl⟩ := phase_of_wake hi hs
      refine h.quiet rfl fun p hp' => ?_
      rw [hp] at hp'
      cases hp'
  | false =>
      cases attemptMoves_of_step hi hs with
      | first _ hp' ha ho => exact h.attempt hp' ha ho
      | next _ _ hp' ha ho => exact h.attempt hp' ha ho
      | opened hp hp' ha ho =>
          have hpending := h.connecting _ hp
          refine ⟨h.justified.append fun pre o post hos => ?_, ?_, fun q hq => ?_⟩
          · cases o with
            | opened q =>
                rw [opened_eq_of_split hos] at ho
                cases hpre : opened pre with
                | nil =>
                    rw [hpre] at ho
                    obtain rfl : q = _ := (List.cons.inj ho).1
                    exact hpending.append (attempts_of_split hos ha) hpre
                | cons r rs =>
                    rw [hpre] at ho
                    simp at ho
            | _ => trivial
          · rw [opened_append, attempts_append, ha, ho, List.append_nil]
            exact hpending.sublist
          · rw [hp'] at hq
            cases hq
      | stays hp ha ho =>
          refine h.quiet ho fun p hp' => ?_
          rw [hp] at hp'
          exact (h.connecting p hp').append ha ho
      | moves hpast _ ha ho =>
          exact h.quiet ho fun p hp => by simp [hp, Phase.toConnect] at hpast

end Opened

/-- A run makes at most three attempts for each of its sleeps and three before the
first; between two sleeps they are an initial part of the profiles in their order; each
attempt opens at most one connection, with its own profile, before the next attempt. -/
theorem attempts_bounded {config : ClientConfig} {is : List ClientInput} {c : Client}
    {tr : List ClientObs} (h : Run (clientStep config) (fun _ _ => True) .start is c tr) :
    (attempts tr).length ≤ 3 * (is.countP isWake + 1) ∧
      (opened tr).Sublist (attempts tr) ∧ Justified OpensForAttempt tr ∧
      ∀ js c' tr', c.phase = .loopHead → (∀ j ∈ js, isWake j = false) →
        Run (clientStep config) (fun _ _ => True) c js c' tr' →
          attempts tr' <+: profiles := by
  have hopens : OpensOnce c tr :=
    h.invariant ⟨justified_nil, List.Sublist.refl _, fun _ hp => by cases hp⟩
      fun hopens _ hs => opensOnce_step hopens hs
  refine ⟨?_, hopens.sublist, hopens.justified, fun js c' tr' hc hjs hrun =>
    (attempts_of_round hc hjs hrun).initial⟩
  obtain ⟨before, made, hmade, hcount, hround⟩ := roundsCounted_of_run h
  have hlen : made.length ≤ 3 := hround.initial.length_le
  rw [hmade, List.length_append]
  omega

/-- The profiles fail one after the other, the client sleeps and begins again. -/
def refusedInputs : List ClientInput :=
  let refused := List.replicate 3 (ClientInput.connect (.error "handshake failure"))
  .check :: refused ++ [.sendEvent, .wake, .check] ++ refused

/-- A pool that closes every connection during its handshake is tried three times, and
three times more after the sleep. -/
theorem attempts_bounded_refused :
    ∃ c tr, Run (clientStep sampleConfig) (fun _ _ => True) .start refusedInputs c tr ∧
      attempts tr = profiles ++ profiles ∧
      (attempts tr).length ≤ 3 * (refusedInputs.countP isWake + 1) := by
  have hexec : (exec (clientStep sampleConfig) Client.start refusedInputs).any (fun r =>
      attempts r.2 == profiles ++ profiles) = true := by
    decide +kernel
  obtain ⟨c, tr, hrun, htest⟩ := anyRun_of_exec_test (p := fun (_ : Client)
    (tr : List ClientObs) => attempts tr == profiles ++ profiles) hexec
  exact ⟨c, tr, hrun, by simpa using htest, (attempts_bounded hrun).1⟩

end LiteXmr.Stratum
