/-
LiteXmr.Controller.PoolPipelineTheorems — the way of a share from the
controller to the submit line, and the ids of the lines the client writes.

A share the controller pops is in its hand until the submit queue takes it,
and on that queue until the client takes it; sessions, failed writes and
reconnects come and go meanwhile. The queue and the hand together refine
`Fifo`: popping enters, a send that comes back with an error loses what
entered last, a submit line takes the head. A submission whose write fails has
left, and is not written again.

* `submits_in_order` — over all sessions the submit lines are a selection in
  order of the shares popped, none of them twice; and the ids of all login and
  submit lines are `1, 2, 3, ..`, so no id comes back before the counter of 64
  bits wraps.
-/
import LiteXmr.Controller.PoolSharesTheorems
import LiteXmr.Lib.Fifo

namespace LiteXmr.Stratum

open Lts

/-! ## Request ids -/

/-- The id of a line the client writes. -/
def ClientObs.requestId : ClientObs → Option UInt64
  | .login id _ | .submit _ id _ _ => some id
  | _ => none

def requestIds (tr : List ClientObs) : List UInt64 := tr.filterMap ClientObs.requestId

@[simp] theorem requestIds_append (tr os : List ClientObs) :
    requestIds (tr ++ os) = requestIds tr ++ requestIds os := List.filterMap_append

/-- A line the client writes carries its id. -/
def ClientObs.Spells (config : ClientConfig) : ClientObs → Prop
  | .login id msg => ∃ p, msg = buildLogin config.login id p
  | .submit sid id submission line => line = buildSubmit sid submission id
  | _ => True

/-- The first `n` values of the counter. -/
def firstIds (n : Nat) : List UInt64 := (List.range n).map fun k => UInt64.ofNat (k + 1)

theorem firstIds_succ (n : Nat) : firstIds (n + 1) = firstIds n ++ [UInt64.ofNat (n + 1)] := by
  rw [firstIds, List.range_succ, List.map_append]
  rfl

theorem firstIds_pairwise {n : Nat} (h : n < 2 ^ 64) : (firstIds n).Pairwise (· < ·) := by
  refine List.pairwise_map.mpr (List.pairwise_lt_range.imp_of_mem ?_)
  intro j k hj hk hjk
  have hkn : k < n := List.mem_range.mp hk
  rw [UInt64.lt_iff_toNat_lt, UInt64.toNat_ofNat', UInt64.toNat_ofNat',
    Nat.mod_eq_of_lt (by omega), Nat.mod_eq_of_lt (by omega)]
  omega

section Ids

variable {config : ClientConfig} {c c' : Client} {i : ClientInput} {tr os : List ClientObs}

theorem requestIds_published (h : Handled) : requestIds h.published = [] :=
  filterMap_published (fun _ => rfl) h

/-- A step writes one line and counts on, or does neither. -/
theorem requestIds_of_step (hs : clientStep config c i = some (c', os)) :
    (requestIds os = [] ∧ c'.requestId = c.requestId) ∨
      (requestIds os = [c.requestId] ∧ c'.requestId = c.requestId + 1) := by
  cases clientMoves_of_step hs with
  | opened _ _ => exact Or.inr ⟨rfl, rfl⟩
  | submit _ _ => exact Or.inr ⟨rfl, rfl⟩
  | @loggedIn p id line msg _ _ _ _ _ =>
      exact Or.inl ⟨requestIds_published (loginResult msg).2, rfl⟩
  | @earlyMessage p id line msg _ _ _ _ =>
      exact Or.inl ⟨requestIds_published (handleMsg msg), rfl⟩
  | @message p sid line msg _ _ _ _ =>
      exact Or.inl ⟨requestIds_published (handleMsg msg), rfl⟩
  | @failed p e _ _ _ =>
      rcases c.fail_cases p e with ⟨next, _, _, hf⟩ | hf <;> rw [hf] <;> exact Or.inl ⟨rfl, rfl⟩
  | _ => exact Or.inl ⟨rfl, rfl⟩

theorem spells_of_step (hs : clientStep config c i = some (c', os)) :
    ∀ o ∈ os, o.Spells config := by
  cases clientMoves_of_step hs with
  | @opened p _ _ =>
      exact List.forall_mem_cons.mpr ⟨trivial, List.forall_mem_singleton.mpr ⟨p, rfl⟩⟩
  | submit _ _ => exact List.forall_mem_singleton.mpr rfl
  | loggedIn _ _ _ _ _ => exact forall_mem_loggedIn (fun _ => trivial) c config _ trivial
  | earlyMessage _ _ _ _ => exact forall_mem_message (fun _ => trivial) c trivial
  | message _ _ _ _ => exact forall_mem_message (fun _ => trivial) c trivial
  | @failed p e _ _ _ =>
      rcases c.fail_cases p e with ⟨next, _, _, hf⟩ | hf <;> rw [hf] <;>
        simp [ClientObs.Spells]
  | _ => simp [ClientObs.Spells, Client.finish]

/-- The ids written so far, and the next one. -/
structure Numbered (c : Client) (tr : List ClientObs) : Prop where
  ids : requestIds tr = firstIds (requestIds tr).length
  next : c.requestId = UInt64.ofNat ((requestIds tr).length + 1)

theorem numbered_start : Numbered .start [] where
  ids := rfl
  next := rfl

theorem numbered_step (h : Numbered c tr) (hs : clientStep config c i = some (c', os)) :
    Numbered c' (tr ++ os) := by
  rcases requestIds_of_step hs with ⟨hos, hnext⟩ | ⟨hos, hnext⟩
  · have happend : requestIds (tr ++ os) = requestIds tr := by
      rw [requestIds_append, hos, List.append_nil]
    exact ⟨by rw [happend]; exact h.ids, by rw [happend, hnext]; exact h.next⟩
  · have happend : requestIds (tr ++ os)
        = firstIds (requestIds tr).length ++ [UInt64.ofNat ((requestIds tr).length + 1)] := by
      rw [requestIds_append, hos, ← h.next, ← h.ids]
    have hlength : (requestIds (tr ++ os)).length = (requestIds tr).length + 1 := by
      rw [requestIds_append, hos, List.length_append, List.length_singleton]
    refine ⟨?_, ?_⟩
    · rw [hlength, firstIds_succ]
      exact happend
    · rw [hlength, hnext, h.next, UInt64.ofNat_add ((requestIds tr).length + 1) 1]
      rfl

theorem numbered_of_run {is : List ClientInput} {ok : Client → ClientInput → Prop}
    (h : Run (clientStep config) ok .start is c tr) : Numbered c tr :=
  h.invariant numbered_start fun hn _ hs => numbered_step hn hs

theorem spells_of_run {is : List ClientInput} {ok : Client → ClientInput → Prop}
    (h : Run (clientStep config) ok .start is c tr) : ∀ o ∈ tr, o.Spells config := by
  refine h.invariant (P := fun _ tr => ∀ o ∈ tr, o.Spells config) (by simp) ?_
  intro c c' tr os i ih _ hs
  exact List.forall_mem_append.mpr ⟨ih, spells_of_step hs⟩

end Ids

end LiteXmr.Stratum

namespace LiteXmr.Pool

open Lts Stratum

/-! ## The pipeline -/

/-- The submission a line is written for. -/
def submittedBy : ClientObs → Option Submission
  | .submit _ _ submission _ => some submission
  | _ => none

/-- The submissions the client has taken to write, over all its sessions. -/
def submissions (tr : List ClientObs) : List Submission := tr.filterMap submittedBy

def poppedShare : PoolObs → Option MinedShare
  | .miner (.popped found) => some found.share
  | _ => none

/-- The shares the controller has popped. -/
def poppedShares (tr : List PoolObs) : List MinedShare := tr.filterMap poppedShare

def ControllerPhase.inHand : ControllerPhase → List Submission
  | .sending submission => [submission]
  | _ => []

/-- The shares on their way from the controller to the client, oldest first. -/
def PoolState.pipeline (s : PoolState) : List Submission :=
  s.submits ++ s.controller.phase.inHand

def PoolObs.fifo : PoolObs → Option (Fifo.Obs Submission)
  | .miner (.popped found) => some (.entered (Submission.ofShare found.share))
  | .client (.submit _ _ submission _) => some (.left submission)
  | _ => none

section Pipeline

variable {cc : ClientConfig} {mc : MinerConfig} {s s' : PoolState} {i : PoolInput}
  {tr os : List PoolObs}

theorem departures_fifo (tr : List PoolObs) :
    Fifo.departures (tr.filterMap PoolObs.fifo) = submissions (clientTrace tr) := by
  rw [Fifo.departures, submissions, clientTrace, List.filterMap_filterMap,
    List.filterMap_filterMap]
  refine List.filterMap_congr fun o _ => ?_
  cases o with
  | client o => cases o <;> rfl
  | miner o => cases o <;> rfl

theorem arrivals_fifo (tr : List PoolObs) :
    Fifo.arrivals (tr.filterMap PoolObs.fifo)
      = (poppedShares tr).map Submission.ofShare := by
  rw [Fifo.arrivals, poppedShares, List.filterMap_filterMap, List.map_filterMap]
  refine List.filterMap_congr fun o _ => ?_
  cases o with
  | client o => cases o <;> rfl
  | miner o => cases o <;> rfl

/-- The client writes a submit line in an exchange only. -/
theorem fifo_of_clientStep {c c' : Client} {j : ClientInput} {cos : List ClientObs}
    (hj : isExchange j = false) (hc : clientStep cc c j = some (c', cos)) :
    (cos.map PoolObs.client).filterMap PoolObs.fifo = [] := by
  rw [List.filterMap_map, List.filterMap_eq_nil_iff]
  intro o ho
  cases o with
  | submit sid id submission line =>
      obtain ⟨rfl, _, _⟩ := submit_of_step hc ho
      cases hj
  | _ => rfl

/-- Only `pop` pops. -/
theorem fifo_of_minerStep {m m' : MinerState} {j : MinerInput} {mos : List MinerObs}
    (hj : j ≠ .pop) (hm : minerStep mc m j = some (m', mos)) :
    (mos.map PoolObs.miner).filterMap PoolObs.fifo = [] := by
  rw [List.filterMap_map, List.filterMap_eq_nil_iff]
  intro o ho
  cases o with
  | popped found =>
      cases minerMoves_of_step hm with
      | pop _ => exact absurd rfl hj
      | _ => simp at ho
  | _ => rfl

/-- The pipeline is such a queue. -/
theorem fifo_of_poolStep (hs : poolStep cc mc s i = some (s', os)) :
    (s'.pipeline = s.pipeline ∧ os.filterMap PoolObs.fifo = []) ∨
      ∃ j, Fifo.step s.pipeline j = some (s'.pipeline, os.filterMap PoolObs.fifo) := by
  cases poolMoves_of_step hs with
  | client hj _ hc _ => exact Or.inl ⟨rfl, fifo_of_clientStep hj hc⟩
  | publish hj _ hc _ hm =>
      refine Or.inl ⟨rfl, ?_⟩
      rw [List.filterMap_append, fifo_of_clientStep hj hc, fifo_of_minerStep (by simp) hm]
      rfl
  | miner _ hpop hm => exact Or.inl ⟨rfl, fifo_of_minerStep hpop hm⟩
  | recvSubmit _ hq _ _ => exact Or.inr ⟨.leave, by rw [PoolState.pipeline, hq]; rfl⟩
  | @recvShare found _ hp _ =>
      refine Or.inr ⟨.enter (Submission.ofShare found.share), ?_⟩
      have hhand : s.pipeline = s.submits := by
        rw [PoolState.pipeline, hp]
        exact List.append_nil _
      rw [hhand]
      rfl
  | submitLost hp _ =>
      refine Or.inr ⟨.lose, ?_⟩
      simp [Fifo.step, PoolState.pipeline, hp, ControllerPhase.inHand]
  | submitSent hp _ =>
      refine Or.inl ⟨?_, rfl⟩
      rw [PoolState.pipeline, PoolState.pipeline, hp]
      exact List.append_nil _
  | sendEvent _ _ _ => exact Or.inl ⟨rfl, rfl⟩
  | recvEvent _ _ =>
      refine Or.inl ⟨?_, rfl⟩
      rw [PoolState.pipeline, PoolState.pipeline, Controller.handleEvent_phase]
  | shutdown hp =>
      refine Or.inl ⟨?_, rfl⟩
      rw [PoolState.pipeline, PoolState.pipeline, hp]
      rfl

/-- What has been submitted and what is in the pipeline are a selection, in
order, of what was popped. -/
theorem pipeline_of_run {is : List PoolInput} {ok : PoolState → PoolInput → Prop}
    (h : Run (poolStep cc mc) ok (.start cc mc) is s tr) :
    (submissions (clientTrace tr) ++ s.pipeline).Sublist
      ((poppedShares tr).map Submission.ofShare) := by
  have hproject : ∃ js, Run Fifo.step (fun _ _ => True) [] js s.pipeline
      (tr.filterMap PoolObs.fifo) := by
    refine h.project PoolState.pipeline PoolObs.fifo ?_
    intro s s' os i _ hs
    rcases fifo_of_poolStep hs with hsame | ⟨j, hj⟩
    · exact Or.inl hsame
    · exact Or.inr ⟨j, trivial, hj⟩
  obtain ⟨js, hfifo⟩ := hproject
  have hsublist := Fifo.sublist_of_run hfifo
  rwa [departures_fifo, arrivals_fifo] at hsublist

end Pipeline

/-- In every run the submit lines of all sessions are for a selection in order
of the shares popped, none of them twice, and every line carries the next
value of the counter: the ids increase as long as it does not wrap. -/
theorem submits_in_order (cc : ClientConfig) (mc : MinerConfig) {is : List PoolInput}
    {s : PoolState} {tr : List PoolObs}
    (h : Run (poolStep cc mc) (fun _ _ => True) (.start cc mc) is s tr) :
    (submissions (clientTrace tr)).Sublist ((poppedShares tr).map Submission.ofShare) ∧
      (∀ o ∈ clientTrace tr, o.Spells cc) ∧
      requestIds (clientTrace tr) = firstIds (requestIds (clientTrace tr)).length ∧
      ((requestIds (clientTrace tr)).length < 2 ^ 64 →
        (requestIds (clientTrace tr)).Pairwise (· < ·)) := by
  obtain ⟨js, hclient⟩ := clientRun_of_poolRun h
  have hids := (numbered_of_run hclient).ids
  refine ⟨?_, spells_of_run hclient, hids, fun hlt => ?_⟩
  · exact (List.sublist_append_left _ _).trans (pipeline_of_run h)
  · rw [hids]
    exact firstIds_pairwise hlt

/-- Two sessions; the share of the first is submitted in the second. -/
theorem submits_in_order_resubmitted :
    ∃ s tr, Run (poolStep poolConfig poolMiner) (fun _ _ => True)
        (.start poolConfig poolMiner) resubmitInputs s tr ∧
      (submissions (clientTrace tr)).length = 1 ∧
      requestIds (clientTrace tr) = [1, 2, 3] ∧
      (submissions (clientTrace tr)).Sublist ((poppedShares tr).map Submission.ofShare) ∧
      (requestIds (clientTrace tr)).Pairwise (· < ·) := by
  have hexec : (exec (poolStep poolConfig poolMiner) (.start poolConfig poolMiner)
      resubmitInputs).any (fun r => decide ((submissions (clientTrace r.2)).length = 1) &&
        decide (requestIds (clientTrace r.2) = [1, 2, 3])) = true := by decide +kernel
  obtain ⟨s, tr, hrun, htest⟩ := anyRun_of_exec_test
    (p := fun (_ : PoolState) tr => decide ((submissions (clientTrace tr)).length = 1) &&
      decide (requestIds (clientTrace tr) = [1, 2, 3])) hexec
  obtain ⟨hone, hids⟩ := Bool.and_eq_true_iff.mp htest
  have hids := of_decide_eq_true hids
  obtain ⟨hsublist, _, _, hpairwise⟩ := submits_in_order poolConfig poolMiner hrun
  exact ⟨s, tr, hrun, of_decide_eq_true hone, hids, hsublist,
    hpairwise (by rw [hids]; decide)⟩

end LiteXmr.Pool
