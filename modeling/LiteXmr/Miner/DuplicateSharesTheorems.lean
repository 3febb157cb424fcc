/-
LiteXmr.Miner.DuplicateSharesTheorems — when a worker queues two shares with
the same job id and nonce.

The cursor moves on by one stride per slot, so a share lies a number of strides
behind it, and shares found later lie nearer (`Lies`, `Trail`). As long as the
worker stays on the job, two shares have the same nonce only if the strides
between them are whole periods of the 32-bit counter, and under the NiceHash
mask the cursor stops before that.

* `duplicate_shares_excused` — two queued shares of one worker with the same
  job id and nonce are excused (`Excuse`): the worker left the job between
  them, the blob has no room for a nonce, or the cursor came all the way round.
* `queued_shares_repeat` — each of them is enough. In particular leaving and
  coming back: the worker keeps no record of earlier jobs, takes the job over
  as a new one and searches the same nonces again.
-/
import Mathlib.Data.List.Infix
import LiteXmr.Miner.WorkerTheorems

namespace LiteXmr

open Lts

/-! ## What the worker did after a share -/

def MinerObs.isBatchOf (w : Nat) : MinerObs → Bool
  | .batch v _ _ _ _ _ => v = w
  | _ => false

/-- The batches of worker `w`. -/
def batchCount (w : Nat) (tr : List MinerObs) : Nat := tr.countP (MinerObs.isBatchOf w)

@[simp] theorem batchCount_append (w : Nat) (tr os : List MinerObs) :
    batchCount w (tr ++ os) = batchCount w tr + batchCount w os := List.countP_append

/-- Everything the worker has read has this job id. -/
def Stays (w : Nat) (jobId : String) (tr : List MinerObs) : Prop :=
  ∀ latest ∈ reads w tr, latest.map Job.jobId = some jobId

/-- What excuses a second share like this one of worker `w`, with the
observations between the two. -/
inductive Excuse (T : UInt32) (w : Nat) (between : List MinerObs) (found : Found) : Prop where
  /-- The worker has read another job id, or none. -/
  | left (h : ¬ Stays w found.share.jobId between)
  /-- The blob of the job has no nonce field. -/
  | short (h : found.job.blobBytes.length < 43)
  /-- The slots of the batches in between are more than a period. -/
  | wrapped (hnice : found.job.nicehash = false)
      (h : Stride.period (2 ^ 32) T.toNat < batchSize * (batchCount w between + 1))

/-! ## Shares behind the cursor -/

/-- The shares a worker is about to offer. -/
def Worker.pending (worker : Worker) : List Found :=
  match worker.phase with
  | .offering found => found
  | _ => []

/-- The share was found on the current job, `d` strides behind the cursor, in
one of the last `batches` batches. -/
structure Lies (T : UInt32) (worker : Worker) (found : Found) (d batches : Nat) : Prop where
  job : worker.currentJob = some found.job
  jobId : found.share.jobId = found.job.jobId
  pos : 0 < d
  slot : ∃ v, worker.nonce = cursorAt T v d ∧ Within found.job T v d ∧
    found.share.nonce
      = formatNonce (fillSlot found.job.nonceMask v found.job.blobBytes).2
  le : found.job.nicehash = false → d ≤ batchSize * batches

/-- The shares of a worker in the order it found them: those it has offered on
the job it stays on, then those it is about to offer, at distances `ds`. -/
structure Trail (T : UInt32) (w : Nat) (tr : List MinerObs) (worker : Worker)
    (ds : List Nat) : Prop where
  pending : List.Forall₂ (fun found d => Lies T worker found d 1) worker.pending ds
  nearer : ds.Pairwise (· > ·)
  offered : Followed (fun o post => ∀ found queued, o = .offered w found queued →
    Stays w found.share.jobId post →
      ∃ d, Lies T worker found d (batchCount w post + 1) ∧ ∀ x ∈ ds, x < d) tr

def HasTrail (T : UInt32) (w : Nat) (tr : List MinerObs) (worker : Worker) : Prop :=
  ∃ ds, Trail T w tr worker ds

section Strides

variable {hash : Bytes → Hash} {job : Job} {T c : UInt32}

/-- The strides of a batch: enough for the slots it hashed, and not more than
its size where nothing stops it. -/
theorem Swept.strides {q : Nat} {batch : Batch} (h : Swept hash job T 64 q c batch) :
    ∃ k, pipelineSize * q ≤ k ∧ batch.nonce = cursorAt T c k ∧ Within job T c k ∧
      (job.nicehash = false → k ≤ batchSize) := by
  rcases h.cursor with ⟨hq, hw, hn⟩ | ⟨r, hr, hw, hstop, hn⟩
  · refine ⟨pipelineSize * q, Nat.le_refl _, hn, hw, fun _ => ?_⟩
    rw [hq]
    decide
  · refine ⟨pipelineSize * q + r, by omega, hn, hw, fun hnice => ?_⟩
    -- the full mask is above every cursor
    exfalso
    rw [Job.nonceMask_of_not_nicehash hnice] at hstop
    have hlt := UInt32.lt_iff_toNat_lt.mp hstop
    have hsize := (cursorAt T c (pipelineSize * q + r)).toNat_lt
    rw [toNat_u32Max] at hlt
    omega

/-- The elements a filter keeps, each with the element it came from. -/
theorem exists_sublist_filterMap {α β : Type} (f : α → Option β) (xs : List α) :
    ∃ ys, ys.Sublist xs ∧
      List.Forall₂ (fun b a => a ∈ xs ∧ f a = some b) (xs.filterMap f) ys := by
  induction xs with
  | nil => exact ⟨[], List.Sublist.refl [], List.Forall₂.nil⟩
  | cons x xs ih =>
      obtain ⟨ys, hsub, hall⟩ := ih
      have hall' := hall.imp fun _ _ h => And.intro (List.mem_cons_of_mem x h.1) h.2
      cases hx : f x with
      | none =>
          rw [List.filterMap_cons_none hx]
          exact ⟨ys, hsub.cons x, hall'⟩
      | some b =>
          rw [List.filterMap_cons_some hx]
          exact ⟨x :: ys, hsub.cons_cons x, List.Forall₂.cons ⟨List.mem_cons_self, hx⟩ hall'⟩

theorem formatNonce_injective {n n' : UInt32} (h : formatNonce n = formatNonce n') : n = n' := by
  have hbytes : some (u32ToLe n) = some (u32ToLe n') := by
    rw [← Base16.decode_encode (u32ToLe n), ← Base16.decode_encode (u32ToLe n')]
    exact congrArg Base16.decode h
  rw [← u32FromLe_u32ToLe n, Option.some.inj hbytes, u32FromLe_u32ToLe]

theorem cursorAt_injective (T : UInt32) (d : Nat) {v v' : UInt32}
    (h : cursorAt T v d = cursorAt T v' d) : v = v' := by
  have := congrArg (· - UInt32.ofNat d * T) h
  simpa [cursorAt] using this

end Strides

/-! ## What a step does to the trail -/

section Trail

variable {config : MinerConfig} {s s' : MinerState} {i : MinerInput} {T : UInt32}
  {tr os : List MinerObs} {w v : Nat} {worker worker' : Worker} {found : Found} {d batches : Nat}

theorem Lies.of_eq (h : Lies T worker found d batches)
    (hj : worker'.currentJob = worker.currentJob) (hn : worker'.nonce = worker.nonce) :
    Lies T worker' found d batches where
  job := hj.trans h.job
  jobId := h.jobId
  pos := h.pos
  slot := by
    rw [hn]
    exact h.slot
  le := h.le

/-- After the next batch the share lies that batch further behind. -/
theorem Lies.advance {k : Nat} (h : Lies T worker found d batches)
    (hj : worker'.currentJob = worker.currentJob)
    (hn : worker'.nonce = cursorAt T worker.nonce k)
    (hw : Within found.job T worker.nonce k)
    (hk : found.job.nicehash = false → k ≤ batchSize) :
    Lies T worker' found (d + k) (batches + 1) where
  job := hj.trans h.job
  jobId := h.jobId
  pos := by
    have := h.pos
    omega
  slot := by
    obtain ⟨v, hv, hwithin, hnonce⟩ := h.slot
    rw [hv] at hn hw
    exact ⟨v, hn.trans (cursorAt_cursorAt T v d k), within_add.mpr ⟨hwithin, hw⟩, hnonce⟩
  le hnice := by
    have hd := h.le hnice
    have hk' := hk hnice
    rw [Nat.mul_succ]
    omega

/-- An observation of worker `w` at work. -/
def MinerObs.worksFor (w : Nat) : MinerObs → Bool
  | .batch v _ _ _ _ _ | .offered v _ _ => v = w
  | _ => false

theorem batchCount_eq_zero (hos : ∀ o ∈ os, o.worksFor w = false) : batchCount w os = 0 := by
  rw [batchCount, List.countP_eq_zero]
  intro o ho
  have := hos o ho
  cases o <;> simp_all [MinerObs.isBatchOf, MinerObs.worksFor]

/-- Offered shares stay where they are while the worker does something else. -/
theorem Trail.offered_append {ds : List Nat} (h : Trail T w tr worker ds)
    (hos : ∀ o ∈ os, o.worksFor w = false) :
    Followed (fun o post => ∀ found queued, o = .offered w found queued →
      Stays w found.share.jobId post →
        ∃ d, Lies T worker found d (batchCount w post + 1) ∧ ∀ x ∈ ds, x < d) (tr ++ os) := by
  rw [followed_append]
  constructor
  · intro pre o post htr found queued hoff hstays
    rw [batchCount_append, batchCount_eq_zero hos, Nat.add_zero]
    refine h.offered pre o post htr found queued hoff fun latest hmem => hstays latest ?_
    rw [reads_append]
    exact List.mem_append_left _ hmem
  · rintro pre o post rfl found queued rfl
    have := hos (.offered w found queued) (by simp)
    simp [MinerObs.worksFor] at this

theorem HasTrail.keep (h : HasTrail T w tr worker) (hos : ∀ o ∈ os, o.worksFor w = false)
    (hj : worker'.currentJob = worker.currentJob) (hn : worker'.nonce = worker.nonce)
    (hp : worker'.pending = worker.pending) : HasTrail T w (tr ++ os) worker' := by
  obtain ⟨ds, htrail⟩ := h
  refine ⟨ds, ?_, htrail.nearer, ?_⟩
  · rw [hp]
    exact htrail.pending.imp fun _ _ hlies => hlies.of_eq hj hn
  · intro pre o post heq found queued hoff hstays
    obtain ⟨d, hlies, hds⟩ := htrail.offered_append hos pre o post heq found queued hoff hstays
    exact ⟨d, hlies.of_eq hj hn, hds⟩

/-- A worker that has read another id has left, and has nothing to offer. -/
theorem HasTrail.leave {latest : Option Job} (h : HasTrail T w tr worker)
    (hid : latest.map Job.jobId ≠ worker.currentJob.map Job.jobId)
    (hos : ∀ o ∈ os, o.worksFor w = false) (hread : latest ∈ reads w os)
    (hp' : worker'.pending = []) :
    HasTrail T w (tr ++ os) worker' := by
  obtain ⟨ds, htrail⟩ := h
  refine ⟨[], by rw [hp']; exact List.Forall₂.nil, List.Pairwise.nil, ?_⟩
  rw [followed_append]
  constructor
  · intro pre o post htr found queued hoff hstays
    -- the share was found on the current job, so the new id is not its own
    have hbefore : Stays w found.share.jobId post := by
      intro l hl
      refine hstays l ?_
      rw [reads_append]
      exact List.mem_append_left _ hl
    obtain ⟨d, hlies, _⟩ := htrail.offered pre o post htr found queued hoff hbefore
    have hnew : latest.map Job.jobId = some found.share.jobId := by
      refine hstays latest ?_
      rw [reads_append]
      exact List.mem_append_right _ hread
    rw [hlies.job, Option.map_some, ← hlies.jobId] at hid
    exact absurd hnew hid
  · rintro pre o post rfl found queued rfl
    have := hos (.offered w found queued) (by simp)
    simp [MinerObs.worksFor] at this

theorem HasTrail.read {watch : Watch} (h : HasTrail T w tr worker) {phase : WorkerPhase}
    (hos : ∀ o ∈ os, o.worksFor w = false) (hread : watch.value ∈ reads w os)
    (hp : worker.pending = []) (hp' : ∀ found, phase ≠ .offering found) :
    HasTrail T w (tr ++ os) { worker.adopt w watch with phase := phase } := by
  have hnew : Worker.pending { worker.adopt w watch with phase := phase } = [] := by
    cases phase with
    | offering found => exact absurd rfl (hp' found)
    | _ => rfl
  by_cases hid : watch.value.map Job.jobId = worker.currentJob.map Job.jobId
  · refine h.keep hos ?_ ?_ (hnew.trans hp.symm)
    · show (worker.adopt w watch).currentJob = _
      rw [Worker.adopt_currentJob, if_pos hid]
    · simp [Worker.adopt, hid]
  · exact h.leave hid hos hread hnew

/-- A share of a batch lies behind the cursor by the strides from its slot on. -/
theorem lies_of_slot {job : Job} {hash : Bytes → Hash} {c : UInt32} {share : MinedShare}
    {j k : Nat} (hshare : shareOf hash job (slotAt job T c j) = some share) (hjk : j < k)
    (hj : worker.currentJob = some job) (hn : worker.nonce = cursorAt T c k)
    (hw : Within job T c k) (hk : job.nicehash = false → k ≤ batchSize) :
    Lies T worker { share, job } (k - j) 1 := by
  obtain ⟨_, rfl⟩ := shareOf_eq_some hshare
  have hsplit : j + (k - j) = k := by omega
  refine ⟨hj, rfl, by omega, ⟨cursorAt T c j, ?_, ?_, rfl⟩, fun hnice => ?_⟩
  · rw [hn, cursorAt_cursorAt, hsplit]
  · rw [← hsplit, within_add] at hw
    exact hw.2
  · have := hk hnice
    omega

/-- The trail after a batch: its shares, each as far behind the new cursor as
its slot, and the earlier ones the whole batch further behind. -/
theorem HasTrail.batch {job : Job} {vm : Vm} {nonce : UInt32} {blobs : List Bytes}
    {batch : Batch} {hash : Bytes → Hash} {q : Nat} (h : HasTrail T w tr worker)
    (hj : worker.currentJob = some job) (hswept : Swept hash job T 64 q worker.nonce batch) :
    HasTrail T w (tr ++ [.batch w job vm nonce blobs batch])
      { worker with
        phase := .offering (batch.shares.map fun share => { share, job })
        nonce := batch.nonce, blobs := batch.blobs } := by
  obtain ⟨ds, htrail⟩ := h
  obtain ⟨k, hqk, hk, hwithin, hfull⟩ := hswept.strides
  obtain ⟨js, hjs, hshares⟩ := exists_sublist_filterMap
    (fun j => shareOf hash job (slotAt job T worker.nonce j)) (List.range (pipelineSize * q))
  have hlt : ∀ j ∈ js, j < k := by
    intro j hmem
    have := List.mem_range.mp (hjs.subset hmem)
    omega
  refine ⟨js.map fun j => k - j, ?_, ?_, ?_⟩
  · show List.Forall₂ _ (batch.shares.map fun share => Found.mk share job) _
    rw [List.forall₂_map_left_iff, List.forall₂_map_right_iff, hswept.shares]
    refine hshares.imp fun share j hslot => ?_
    have hjq := List.mem_range.mp hslot.1
    exact lies_of_slot hslot.2 (by omega) hj hk hwithin hfull
  · have hinc : js.Pairwise (· < ·) := List.pairwise_lt_range.sublist hjs
    refine List.pairwise_map.mpr (hinc.imp_of_mem ?_)
    intro a b _ hb hab
    have := hlt b hb
    show k - b < k - a
    omega
  · rw [followed_append]
    constructor
    · intro pre o post htr found queued hoff hstays
      have hbefore : Stays w found.share.jobId post := by
        simpa [Stays, reads, MinerObs.readOf] using hstays
      obtain ⟨d, hlies, _⟩ := htrail.offered pre o post htr found queued hoff hbefore
      obtain rfl : job = found.job := Option.some.inj (hj.symm.trans hlies.job)
      have hcount : batchCount w [.batch w found.job vm nonce blobs batch] = 1 := by
        simp [batchCount, MinerObs.isBatchOf]
      rw [batchCount_append, hcount]
      refine ⟨d + k, hlies.advance rfl hk hwithin hfull, ?_⟩
      intro x hx
      obtain ⟨j, _, rfl⟩ := List.mem_map.mp hx
      have := hlies.pos
      omega
    · intro pre o post heq found queued hoff
      subst hoff
      cases pre <;> simp at heq

/-- Offering moves the first of the waiting shares behind the others. -/
theorem HasTrail.offer {rest : List Found} {queued : Bool} (h : HasTrail T w tr worker)
    (hp : worker.phase = .offering (found :: rest)) :
    HasTrail T w (tr ++ [.offered w found queued])
      { worker with phase := .offering rest } := by
  obtain ⟨ds, htrail⟩ := h
  have hpending := htrail.pending
  rw [show worker.pending = found :: rest by simp [Worker.pending, hp]] at hpending
  cases hpending with
  | @cons _ d _ ds hlies hrest =>
      obtain ⟨hnearer, hrestNearer⟩ := List.pairwise_cons.mp htrail.nearer
      refine ⟨ds, hrest.imp fun _ _ hl => hl.of_eq rfl rfl, hrestNearer, ?_⟩
      rw [followed_append]
      constructor
      · intro pre o post htr found' queued' hoff hstays
        have hbefore : Stays w found'.share.jobId post := by
          simpa [Stays, reads, MinerObs.readOf] using hstays
        obtain ⟨d', hlies', hds⟩ := htrail.offered pre o post htr found' queued' hoff hbefore
        have hcount : batchCount w [.offered w found queued] = 0 := by
          simp [batchCount, MinerObs.isBatchOf]
        rw [batchCount_append, hcount, Nat.add_zero]
        exact ⟨d', hlies'.of_eq rfl rfl, fun x hx => hds x (List.mem_cons_of_mem d hx)⟩
      · intro pre o post heq found' queued' hoff _
        subst hoff
        cases pre with
        | cons x pre => simp at heq
        | nil =>
            obtain ⟨⟨rfl, _⟩, rfl⟩ := by simpa using heq
            exact ⟨d, hlies.of_eq rfl rfl, hnearer⟩

/-! ## Whole runs -/

def AllTrails (T : UInt32) (s : MinerState) (tr : List MinerObs) : Prop :=
  ∀ v, HasTrail T v tr (s.workers v)

/-- A step of worker `w`: the others do nothing. -/
theorem AllTrails.of_worker (h : AllTrails T s tr) (w : Nat)
    (hworkers : ∀ v, v ≠ w → s'.workers v = s.workers v)
    (hos : ∀ v, v ≠ w → ∀ o ∈ os, o.worksFor v = false)
    (hw : HasTrail T w (tr ++ os) (s'.workers w)) : AllTrails T s' (tr ++ os) := by
  intro v
  by_cases hv : v = w
  · subst hv
    exact hw
  · rw [hworkers v hv]
    exact (h v).keep (hos v hv) rfl rfl rfl

/-- A step that moves no worker. -/
theorem AllTrails.of_others (h : AllTrails T s tr) (hworkers : s'.workers = s.workers)
    (hos : ∀ v, ∀ o ∈ os, o.worksFor v = false) : AllTrails T s' (tr ++ os) := by
  intro v
  rw [hworkers]
  exact (h v).keep (hos v) rfl rfl rfl

theorem worksFor_cache (v : Nat) (cos : List CacheObs) :
    ∀ o ∈ cos.map MinerObs.cache, o.worksFor v = false := by
  intro o ho
  obtain ⟨_, _, rfl⟩ := List.mem_map.mp ho
  rfl

/-- Only a worker that offers shares has any pending. -/
theorem pending_eq_nil (hp : ∀ found, worker.phase ≠ .offering found) :
    worker.pending = [] := by
  unfold Worker.pending
  split
  · next found hf => exact absurd hf (hp found)
  · rfl

theorem allTrails_step (h : AllTrails config.threadCount s tr) (hsound : AllSound s tr)
    (hs : minerStep config s i = some (s', os)) :
    AllTrails config.threadCount s' (tr ++ os) := by
  cases minerMoves_of_step hs with
  | publish _ => exact h.of_others rfl (by simp [MinerObs.worksFor])
  | dropSender => exact h.of_others rfl (by simp)
  | @readNone w hp _ =>
      refine h.of_worker w (fun v hv => by simp [hv]) (by simp [MinerObs.worksFor]) ?_
      rw [MinerState.setWorker_self]
      exact (h w).read (by simp [MinerObs.worksFor]) (by simp [reads, MinerObs.readOf])
        (pending_eq_nil (by simp [hp])) (by simp)
  | @readNewVm w job cache cos hp _ _ =>
      have hos : ∀ v, ∀ o ∈ MinerObs.read w s.watch.value :: cos.map MinerObs.cache,
          o.worksFor v = false :=
        fun v => List.forall_mem_cons.mpr ⟨rfl, worksFor_cache v cos⟩
      refine h.of_worker w (fun v hv => by simp [hv]) (fun v _ => hos v) ?_
      rw [MinerState.setCache_workers, MinerState.setWorker_self]
      exact (h w).read (hos w) (by simp [reads, MinerObs.readOf])
        (pending_eq_nil (by simp [hp])) (by simp)
  | @readSameVm w job hp _ _ =>
      refine h.of_worker w (fun v hv => by simp [hv]) (by simp [MinerObs.worksFor]) ?_
      rw [MinerState.setWorker_self]
      exact (h w).read (by simp [MinerObs.worksFor]) (by simp [reads, MinerObs.readOf])
        (pending_eq_nil (by simp [hp])) (by simp)
  | @changed w hp _ =>
      refine h.of_worker w (fun v hv => by simp [hv]) (by simp) ?_
      rw [MinerState.setWorker_self]
      exact (h w).keep (by simp) rfl rfl (by simp [Worker.pending, hp])
  | @exit w hp _ =>
      refine h.of_worker w (fun v hv => by simp [hv]) (by simp) ?_
      rw [MinerState.setWorker_self]
      exact (h w).keep (by simp) rfl rfl (by simp [Worker.pending, hp])
  | cache _ _ => exact h.of_others rfl fun v => worksFor_cache v _
  | @newVm w available job req dataset vm cache cos hp _ _ _ _ =>
      have hos : ∀ v, ∀ o ∈ cos.map MinerObs.cache ++ [.vmCreated w job vm],
          o.worksFor v = false :=
        fun v => List.forall_mem_append.mpr
          ⟨worksFor_cache v cos, List.forall_mem_singleton.mpr rfl⟩
      refine h.of_worker w (fun v hv => by simp [hv]) (fun v _ => hos v) ?_
      rw [MinerState.setCache_workers, MinerState.setWorker_self]
      exact (h w).keep (hos w) rfl rfl (by simp [Worker.pending, hp])
  | @noVm w available job cache cos hp _ _ =>
      refine h.of_worker w (fun v hv => by simp [hv]) (fun v _ => worksFor_cache v cos) ?_
      rw [MinerState.setCache_workers, MinerState.setWorker_self]
      exact (h w).keep (worksFor_cache w cos) rfl rfl (by simp [Worker.pending, hp])
  | @batch w job vm batch _ hj _ hb =>
      refine h.of_worker w (fun v hv => by simp [hv])
        (fun v hv => by simp [MinerObs.worksFor, Ne.symm hv]) ?_
      rw [MinerState.setWorker_self]
      obtain ⟨q, hswept⟩ := mineOneBatch_swept (config.hash vm.dataset) config.threadCount
        (s.workers w).nonce ((hsound w).job.buffers job hj)
      rw [← hb] at hswept
      exact (h w).batch hj hswept
  | @noBatch w hp =>
      refine h.of_worker w (fun v hv => by simp [hv]) (by simp) ?_
      rw [MinerState.setWorker_self]
      exact (h w).keep (by simp) rfl rfl (by simp [Worker.pending, hp])
  | @offered w hp =>
      refine h.of_worker w (fun v hv => by simp [hv]) (by simp) ?_
      rw [MinerState.setWorker_self]
      exact (h w).keep (by simp) rfl rfl (by simp [Worker.pending, hp])
  | @offer w found rest sent hp hsent =>
      subst hsent
      refine h.of_worker w (fun v hv => by simp [hv])
        (fun v hv => by simp [MinerObs.worksFor, Ne.symm hv]) ?_
      rw [MinerState.trySend_workers, MinerState.setWorker_self]
      exact (h w).offer hp
  | pop _ => exact h.of_others rfl (by simp [MinerObs.worksFor])

theorem allTrails_start (T : UInt32) : AllTrails T (.start T) [] := by
  intro w
  have hpending : ((MinerState.start T).workers w).pending = [] := by
    refine pending_eq_nil fun found => ?_
    simp only [MinerState.start]
    split <;> simp [Worker.new]
  refine ⟨[], ?_, List.Pairwise.nil, by simp [Followed]⟩
  rw [hpending]
  exact List.Forall₂.nil

theorem allTrails_of_run {is : List MinerInput} {ok : MinerState → MinerInput → Prop}
    (h : Run (minerStep config) ok (.start config.threadCount) is s tr) :
    AllTrails config.threadCount s tr := by
  have hboth : AllSound s tr ∧ AllTrails config.threadCount s tr :=
    h.invariant (P := fun s tr => AllSound s tr ∧ AllTrails config.threadCount s tr)
      ⟨allSound_start _, allTrails_start _⟩
      fun hi _ hs => ⟨allSound_step hi.1 hs, allTrails_step hi.2 hi.1 hs⟩
  exact hboth.2

/-- A worker that does not run never does. -/
theorem exited_step (hw : (s.workers w).phase = .exited)
    (hs : minerStep config s i = some (s', os)) : (s'.workers w).phase = .exited := by
  have hframe : ∀ (v : Nat) (worker : Worker), (s.workers v).phase ≠ .exited →
      ((s.setWorker v worker).workers w).phase = .exited := by
    intro v worker hv
    have hne : w ≠ v := by
      rintro rfl
      exact hv hw
    rw [MinerState.setWorker_of_ne hne]
    exact hw
  cases minerMoves_of_step hs with
  | readNone hp _ => exact hframe _ _ (by simp [hp])
  | readNewVm hp _ _ => exact hframe _ _ (by simp [hp])
  | readSameVm hp _ _ => exact hframe _ _ (by simp [hp])
  | changed hp _ => exact hframe _ _ (by simp [hp])
  | exit hp _ => exact hframe _ _ (by simp [hp])
  | newVm hp _ _ _ _ => exact hframe _ _ (by simp [hp])
  | noVm hp _ _ => exact hframe _ _ (by simp [hp])
  | batch hp _ _ _ => exact hframe _ _ (by simp [hp])
  | noBatch hp => exact hframe _ _ (by simp [hp])
  | offered hp => exact hframe _ _ (by simp [hp])
  | offer hp hsent =>
      subst hsent
      rw [MinerState.trySend_workers]
      exact hframe _ _ (by simp [hp])
  | _ => exact hw

theorem exited_of_run {is : List MinerInput} {ok : MinerState → MinerInput → Prop}
    (h : Run (minerStep config) ok (.start config.threadCount) is s tr)
    (hw : config.threadCount.toNat ≤ w) : (s.workers w).phase = .exited := by
  refine h.stateInvariant (P := fun s => (s.workers w).phase = .exited) ?_
    fun hp _ hs => exited_step hp hs
  have hno : ¬ w < config.threadCount.toNat := by omega
  simp [MinerState.start, hno]

theorem lt_of_run {is : List MinerInput} {ok : MinerState → MinerInput → Prop}
    (h : Run (minerStep config) ok (.start config.threadCount) is s tr)
    (hp : (s.workers w).phase ≠ .exited) : w < config.threadCount.toNat := by
  by_contra hle
  exact hp (exited_of_run h (Nat.le_of_not_lt hle))

end Trail

/-! ## Two shares with one nonce -/

section Excuse

variable {T : UInt32} {worker : Worker} {found found' : Found} {d d' b b' : Nat}

/-- Two shares on the current job with the same nonce: a whole number of
periods lies between their slots, and the NiceHash range is shorter. -/
theorem period_of_lies (hT : 0 < T) (h : Lies T worker found d b)
    (h' : Lies T worker found' d' b') (hd : d' < d) (hlen : 43 ≤ found.job.blobBytes.length)
    (hnonce : found.share.nonce = found'.share.nonce) :
    found.job.nicehash = false ∧ Stride.period (2 ^ 32) T.toNat < batchSize * b := by
  have hTN := T.toNat_lt
  have hvN : ∀ x : UInt32, x.toNat < 2 ^ 32 := fun x => x.toNat_lt
  have hjob : found.job = found'.job := Option.some.inj (h.job.symm.trans h'.job)
  obtain ⟨v, hv, hw, hn⟩ := h.slot
  obtain ⟨v', hv', hw', hn'⟩ := h'.slot
  have hpos := h.pos
  have hpos' := h'.pos
  have hsplit : d - d' + d' = d := by omega
  -- the later slot is `d - d'` strides after the earlier one
  have hlater : v' = cursorAt T v (d - d') := by
    refine cursorAt_injective T d' ?_
    rw [cursorAt_cursorAt, hsplit, ← hv, ← hv']
  have hle : v ≤ found.job.nonceMask := by
    have := hw 0 hpos
    rwa [cursorAt_zero] at this
  have hle' : v' ≤ found.job.nonceMask := by
    rw [hlater]
    exact hw (d - d') (by omega)
  have hsame : v = v' := by
    rw [hn, hn', ← hjob] at hnonce
    have hmerge := formatNonce_injective hnonce
    rw [fillSlot_of_le hlen, fillSlot_of_le hlen] at hmerge
    exact Job.mergeNonce_injective found.job _ hle hle' hmerge
  have hback : Stride.pos (2 ^ 32) T.toNat v.toNat (d - d') = v.toNat := by
    rw [← toNat_cursorAt, ← hlater, hsame]
  cases hnice : found.job.nicehash with
  | true =>
      -- within the range of the mask no position comes twice
      have hruns := within_iff_runs.mp hw
      rw [rangeSize_of_nicehash hnice] at hruns
      have hzero := Stride.pos_injOn (hvN v) (UInt32.lt_iff_toNat_lt.mp hT) hTN (by omega)
        hruns (show d - d' < d by omega) hpos
        (hback.trans (Stride.pos_zero (hvN v)).symm)
      omega
  | false =>
      have hperiod := Nat.le_of_dvd (by omega) (Stride.period_dvd (hvN v) hback)
      have hlimit := h.le hnice
      exact ⟨rfl, by omega⟩

end Excuse

/-- An offered share was the first of those waiting. -/
theorem offered_of_step {config : MinerConfig} {s s' : MinerState} {i : MinerInput} {w : Nat}
    {found : Found} {queued : Bool} {os pre post : List MinerObs}
    (hs : minerStep config s i = some (s', os))
    (hos : os = pre ++ .offered w found queued :: post) :
    pre = [] ∧ ∃ rest, (s.workers w).phase = .offering (found :: rest) := by
  have hmem : MinerObs.offered w found queued ∈ os := by simp [hos]
  cases minerMoves_of_step hs with
  | @offer v first rest sent hp _ =>
      obtain ⟨rfl, rfl, rfl⟩ := by simpa using hmem
      refine ⟨?_, rest, hp⟩
      cases pre with
      | nil => rfl
      | cons x pre => simp at hos
  | _ => simp at hmem

/-- Two shares of one worker that are both queued and have the same job id and
nonce are excused. -/
theorem duplicate_shares_excused (config : MinerConfig) {is : List MinerInput}
    {s : MinerState} {tr : List MinerObs}
    (h : Run (minerStep config) (fun _ _ => True) (.start config.threadCount) is s tr) :
    ∀ w pre found between found' post,
      tr = pre ++ .offered w found true :: (between ++ .offered w found' true :: post) →
        found.share.jobId = found'.share.jobId → found.share.nonce = found'.share.nonce →
          Excuse config.threadCount w between found := by
  intro w pre found between found' post htr _ hnonce
  have hjust : Justified (fun past x => x = .offered w found' true →
      ∀ pre between, past = pre ++ .offered w found true :: between →
        Excuse config.threadCount w between found) tr := by
    refine h.justified ?_
    intro is s s' tr os i hrun _ hs past x rest hos hx pre between hpast
    subst hx
    obtain ⟨rfl, waiting, hp⟩ := offered_of_step hs hos
    rw [List.append_nil] at hpast
    obtain ⟨ds, htrail⟩ := allTrails_of_run hrun w
    have hpending := htrail.pending
    rw [show (s.workers w).pending = found' :: waiting by simp [Worker.pending, hp]] at hpending
    cases hpending with
    | @cons _ d' _ ds hlies' _ =>
        by_cases hstays : Stays w found.share.jobId between
        · obtain ⟨d, hlies, hds⟩ := htrail.offered pre _ between hpast found true rfl hstays
          by_cases hlen : 43 ≤ found.job.blobBytes.length
          · -- a worker that offers shares runs, so there are threads
            have hT : 0 < config.threadCount.toNat :=
              Nat.zero_lt_of_lt (lt_of_run hrun (show (s.workers w).phase ≠ .exited by simp [hp]))
            obtain ⟨hnice, hperiod⟩ := period_of_lies (UInt32.lt_iff_toNat_lt.mpr hT) hlies
              hlies' (hds d' List.mem_cons_self) hlen hnonce
            exact .wrapped hnice hperiod
          · exact .short (by omega)
        · exact .left hstays
  exact hjust (pre ++ .offered w found true :: between) _ post (by simp [htr]) rfl pre between rfl

/-! ### Shares that are repeated -/

/-- Worker `0` queues a share with the job id and nonce of one it queued
before, and `p` holds of the time in between and of the first share. -/
def Repeats (p : List MinerObs → Found → Prop) (tr : List MinerObs) : Prop :=
  ∃ pre found between found' post,
    tr = pre ++ .offered 0 found true :: (between ++ .offered 0 found' true :: post) ∧
      found.share.jobId = found'.share.jobId ∧ found.share.nonce = found'.share.nonce ∧
      p between found

/-- The last observation of a trace repeats a share so. -/
def repeatsShare (p : List MinerObs → Found → Prop) [∀ between found, Decidable (p between found)]
    (past : List MinerObs) : MinerObs → Bool
  | .offered 0 found' true =>
      past.tails.any fun
        | .offered 0 found true :: between =>
            found.share.jobId = found'.share.jobId ∧ found.share.nonce = found'.share.nonce ∧
              p between found
        | _ => false
  | _ => false

instance (w : Nat) (jobId : String) (tr : List MinerObs) : Decidable (Stays w jobId tr) :=
  List.decidableBAll _ (reads w tr)

theorem repeats_of_repeatsShare {p : List MinerObs → Found → Prop}
    [∀ between found, Decidable (p between found)] {tr : List MinerObs}
    (h : endsWith (repeatsShare p) tr = true) : Repeats p tr := by
  obtain ⟨past, x, rfl, hx⟩ := exists_of_endsWith h
  unfold repeatsShare at hx
  split at hx
  · next found' =>
      obtain ⟨suffix, hsuffix, hsame⟩ := List.any_eq_true.mp hx
      obtain ⟨pre, rfl⟩ := (List.mem_tails _ _).mp hsuffix
      split at hsame
      · next found between =>
          exact ⟨pre, found, between, found', [], by simp, of_decide_eq_true hsame⟩
      · cases hsame
  · cases hx

/-- Only jobs a pool parser has returned are published. -/
def PublishesAccepted (_ : MinerState) (i : MinerInput) : Prop :=
  ∀ job, i = .publish job → job.Accepted

theorem length_zeros : (List.replicate hashSize (0 : UInt8)).length = hashSize := rfl

theorem length_ones : (List.replicate hashSize (255 : UInt8)).length = hashSize := rfl

/-- A hash that is a share for the nonce zero only. The worker would come back to
that nonce with any number of threads; there are so many here only because a
batch on a NiceHash job is then over after sixteen slots and not after 1024, so
that the three batches of `returnRun` can be executed. -/
def zeroNonceConfig : MinerConfig :=
  { hash := fun _ blob =>
      if nonceField blob &&& nicehashNonceMask = 0 then ⟨List.replicate hashSize 0, length_zeros⟩
      else ⟨List.replicate hashSize 255, length_ones⟩
    threadCount := 0x100000 }

/-- The same job under another id. -/
def otherJob : Job := { reservedByteJob with jobId := "k" }

theorem otherJob_accepted : otherJob.Accepted :=
  .notify (show Job.fromNotify
    [.string "k", .string (Base16.encode (List.replicate 42 0 ++ [1])), .string "ffffffff",
      .string "rx/0"] = _ from rfl)

/-- The pool sends a job, another one, and the first one again; the worker
mines a batch on each. -/
def returnRun : List MinerInput :=
  [.publish reservedByteJob, .read 0, .cache (.lock 0), .cache (.built 0 true),
    .cache (.store 0), .createVm 0 true, .mine 0, .offer 0, .offer 0, .publish otherJob,
    .read 0, .mine 0, .offer 0, .offer 0, .publish reservedByteJob, .read 0, .mine 0, .offer 0]

theorem publishes_of_mem_returnRun {t : MinerState} {i : MinerInput} (hi : i ∈ returnRun) :
    PublishesAccepted t i := by
  intro job hi'
  subst hi'
  simp only [returnRun, List.mem_cons, MinerInput.publish.injEq, reduceCtorEq,
    List.not_mem_nil, or_false, false_or] at hi
  rcases hi with rfl | rfl | rfl
  · exact reservedByteJob_accepted
  · exact otherJob_accepted
  · exact reservedByteJob_accepted

theorem returnRun_exec :
    (exec (minerStep zeroNonceConfig) (.start 0x100000) returnRun).any
      (fun r => endsWith (repeatsShare fun _ found =>
        found.job.nicehash = true ∧ 43 ≤ found.job.blobBytes.length) r.2) = true := by
  decide +kernel

/-- A worker mines one batch on a job and offers three shares of it. -/
def batchRun (job : Job) : List MinerInput :=
  [.publish job, .read 0, .cache (.lock 0), .cache (.built 0 true), .cache (.store 0),
    .createVm 0 true, .mine 0, .offer 0, .offer 0, .offer 0]

theorem publishes_of_mem_batchRun {job : Job} (haccepted : job.Accepted) {t : MinerState}
    {i : MinerInput} (hi : i ∈ batchRun job) : PublishesAccepted t i := by
  rintro published rfl
  simp only [batchRun, List.mem_cons, MinerInput.publish.injEq, reduceCtorEq,
    List.not_mem_nil, or_false] at hi
  rw [hi]
  exact haccepted

/-- Every hash is a share. -/
def zeroHashConfig (T : UInt32) : MinerConfig :=
  { hash := fun _ => zeroHash, threadCount := T }

theorem shortBlob_exec :
    (exec (minerStep (zeroHashConfig 1)) (.start 1) (batchRun emptyBlobJob)).any
      (fun r => endsWith (repeatsShare fun between found =>
        Stays 0 found.share.jobId between ∧
          batchSize * (batchCount 0 between + 1) ≤ Stride.period (2 ^ 32) 1) r.2) = true := by
  decide +kernel

/-- Two strides of so many threads are a period of the counter. With eight threads
a period has `2^29` slots, which is the same run but too long to be executed. -/
theorem wrapped_exec :
    (exec (minerStep (zeroHashConfig 0x80000000)) (.start 0x80000000) (batchRun zeroBlobJob)).any
      (fun r => endsWith (repeatsShare fun between found =>
        Stays 0 found.share.jobId between ∧ 43 ≤ found.job.blobBytes.length) r.2) = true := by
  decide +kernel

theorem duplicate_shares_excused_return :
    ∃ s tr, Run (minerStep zeroNonceConfig) (fun _ _ => True) (.start 0x100000) returnRun s tr ∧
      ∃ pre found between found' post,
        tr = pre ++ .offered 0 found true :: (between ++ .offered 0 found' true :: post) ∧
        found.share.jobId = found'.share.jobId ∧ found.share.nonce = found'.share.nonce ∧
        Excuse 0x100000 0 between found := by
  obtain ⟨s, tr, hrun, hends⟩ := anyRun_of_exec_test
    (p := fun _ tr => endsWith (repeatsShare _) tr) returnRun_exec
  obtain ⟨pre, found, between, found', post, htr, hid, hnonce, -⟩ := repeats_of_repeatsShare hends
  exact ⟨s, tr, hrun, pre, found, between, found', post, htr, hid, hnonce,
    duplicate_shares_excused zeroNonceConfig hrun 0 pre found between found' post htr hid hnonce⟩

/-- Each excuse occurs alone. A job that comes back after another one repeats
its shares though its blob holds a nonce and the mask keeps the counter from
coming round; a worker that stays on its job repeats them in a blob without a
nonce field, and in another one when the counter has come round. -/
theorem queued_shares_repeat :
    (∃ s tr, Run (minerStep zeroNonceConfig) PublishesAccepted (.start 0x100000) returnRun s tr ∧
      Repeats (fun _ found =>
        found.job.nicehash = true ∧ 43 ≤ found.job.blobBytes.length) tr) ∧
    (∃ s tr, Run (minerStep (zeroHashConfig 1)) PublishesAccepted (.start 1)
        (batchRun emptyBlobJob) s tr ∧
      Repeats (fun between found => Stays 0 found.share.jobId between ∧
        batchSize * (batchCount 0 between + 1) ≤ Stride.period (2 ^ 32) 1) tr) ∧
    ∃ s tr, Run (minerStep (zeroHashConfig 0x80000000)) PublishesAccepted (.start 0x80000000)
        (batchRun zeroBlobJob) s tr ∧
      Repeats (fun between found => Stays 0 found.share.jobId between ∧
        43 ≤ found.job.blobBytes.length) tr := by
  refine ⟨?_, ?_, ?_⟩
  · obtain ⟨s, tr, hrun, hends⟩ := run_of_exec_test
      (p := fun _ tr => endsWith (repeatsShare _) tr) returnRun_exec
      fun _ _ hi => publishes_of_mem_returnRun hi
    exact ⟨s, tr, hrun, repeats_of_repeatsShare hends⟩
  · obtain ⟨s, tr, hrun, hends⟩ := run_of_exec_test
      (p := fun _ tr => endsWith (repeatsShare _) tr) shortBlob_exec
      fun _ _ hi => publishes_of_mem_batchRun emptyBlobJob_accepted hi
    exact ⟨s, tr, hrun, repeats_of_repeatsShare hends⟩
  · obtain ⟨s, tr, hrun, hends⟩ := run_of_exec_test
      (p := fun _ tr => endsWith (repeatsShare _) tr) wrapped_exec
      fun _ _ hi => publishes_of_mem_batchRun zeroBlobJob_accepted hi
    exact ⟨s, tr, hrun, repeats_of_repeatsShare hends⟩

end LiteXmr
