/-
LiteXmr.Miner.BatchTheorems — what a worker hashes and which shares it
queues, over any number of batches on one job.

The buffers are reused from round to round, but filling a used buffer gives
what filling the template gives (`fillSlot_fillSlot`), so every buffer is
`LikeTemplate` and the slot worked on after `j` strides from cursor `c` is
a function of the job alone, `slotAt`. `Swept` says what a stretch of
mining from `c` amounts to: some number `q` of complete rounds, their slots
hashed and their shares queued in order, and the cursor either right behind
them or stopped above the mask within the next round. One round is `Swept`
(`mineRound_swept`), stretches compose (`Swept.append`), and so a batch and
any number of batches are (`mineBatches_swept`).

`mined_share_law_iff` is the law of the queued shares: the nonce text spells
bytes 39..43 of the hashed blob. It holds for a job exactly when the blob
has a nonce field or the job never yields a share.
-/
import LiteXmr.Miner.Batch
import LiteXmr.Job.NonceTheorems
import LiteXmr.Lib.Stride

namespace LiteXmr

/-! ## The fuel of the round loop -/

/-- Any fuel of at least `remaining` gives the same batch. -/
theorem mineRounds_fuel (hash : Bytes → Hash) (job : Job) (T : UInt32) :
    ∀ (fuel fuel' remaining : Nat) (nonce : UInt32) (blobs : List Bytes),
      remaining ≤ fuel → remaining ≤ fuel' →
      mineRounds hash job T fuel remaining nonce blobs
        = mineRounds hash job T fuel' remaining nonce blobs := by
  intro fuel
  induction fuel with
  | zero =>
      intro fuel' remaining nonce blobs h _
      obtain rfl : remaining = 0 := by omega
      cases fuel' <;> simp [mineRounds]
  | succ fuel ih =>
      intro fuel' remaining nonce blobs h h'
      by_cases hr : remaining = 0
      · subst hr
        cases fuel' <;> simp [mineRounds]
      · obtain ⟨f, rfl⟩ : ∃ f, fuel' = f + 1 := ⟨fuel' - 1, by omega⟩
        have hmin : 0 < min remaining pipelineSize := by simp [pipelineSize]; omega
        simp only [mineRounds, if_neg hr]
        rw [ih f _ _ _ (by omega) (by omega)]

/-! ## Slots -/

theorem fillSlot_of_le {blob : Bytes} (h : 43 ≤ blob.length) (mask nonce : UInt32) :
    fillSlot mask nonce blob
      = (stamp blob (mergeNonce (nonceField blob) nonce mask),
          mergeNonce (nonceField blob) nonce mask) := by
  rw [fillSlot, if_pos (by simpa [nonceOffset] using h), writeNonce_of_le h]

theorem fillSlot_of_lt {blob : Bytes} (h : blob.length < 43) (mask nonce : UInt32) :
    fillSlot mask nonce blob = (blob, 0) := by
  rw [fillSlot, if_neg (by simpa [nonceOffset] using h)]

/-- Filling a used buffer gives what filling the template gives. -/
theorem fillSlot_fillSlot (mask n n' : UInt32) (template : Bytes) :
    fillSlot mask n' (fillSlot mask n template).1 = fillSlot mask n' template := by
  by_cases h : 43 ≤ template.length
  · have hlen : 43 ≤ (fillSlot mask n template).1.length := by
      rw [fillSlot_of_le h, length_stamp h]
      exact h
    rw [fillSlot_of_le hlen, fillSlot_of_le h, fillSlot_of_le h, nonceField_stamp h,
      mergeNonce_mergeNonce, stamp_stamp h]
  · rw [fillSlot_of_lt (by omega) mask n]

/-- A buffer that is filled as the template of the job is. -/
def LikeTemplate (job : Job) (buffer : Bytes) : Prop :=
  ∀ n, fillSlot job.nonceMask n buffer = fillSlot job.nonceMask n job.blobBytes

theorem LikeTemplate.fill {job : Job} {buffer : Bytes} (h : LikeTemplate job buffer)
    (n : UInt32) : LikeTemplate job (fillSlot job.nonceMask n buffer).1 := by
  intro n'
  rw [h n, fillSlot_fillSlot]

/-- The sixteen buffers of a worker that mines on `job`. -/
def BuffersOf (job : Job) (blobs : List Bytes) : Prop :=
  blobs.length = pipelineSize ∧ ∀ buffer ∈ blobs, LikeTemplate job buffer

theorem buffersOf_templateBuffers (job : Job) : BuffersOf job (templateBuffers job) := by
  refine ⟨by simp [templateBuffers], fun buffer hb => ?_⟩
  obtain rfl := List.eq_of_mem_replicate hb
  exact fun _ => rfl

section

variable (hash : Bytes → Hash) (job : Job) (T : UInt32)

/-- The cursor after `j` strides. -/
def cursorAt (c : UInt32) (j : Nat) : UInt32 := c + UInt32.ofNat j * T

/-- The buffer and full nonce worked on after `j` strides. -/
def slotAt (c : UInt32) (j : Nat) : Bytes × UInt32 :=
  fillSlot job.nonceMask (cursorAt T c j) job.blobBytes

/-- The first `k` cursors are not above the mask. -/
def Within (c : UInt32) (k : Nat) : Prop := ∀ j < k, cursorAt T c j ≤ job.nonceMask

theorem toNat_cursorAt (c : UInt32) (j : Nat) :
    (cursorAt T c j).toNat = Stride.pos (2 ^ 32) T.toNat c.toNat j := by
  rw [cursorAt, Stride.pos, UInt32.toNat_add, UInt32.toNat_mul, UInt32.toNat_ofNat',
    Nat.add_mod_mod, Nat.add_mod, Nat.mod_mul_mod, ← Nat.add_mod]

theorem cursorAt_zero (c : UInt32) : cursorAt T c 0 = c := by simp [cursorAt]

theorem cursorAt_cursorAt (c : UInt32) (a b : Nat) :
    cursorAt T (cursorAt T c a) b = cursorAt T c (a + b) := by
  apply UInt32.toNat_inj.mp
  simp only [toNat_cursorAt, Stride.pos_pos]

theorem cursorAt_succ (c : UInt32) (j : Nat) :
    cursorAt T (c + T) j = cursorAt T c (j + 1) := by
  have h1 : c + T = cursorAt T c 1 := by simp [cursorAt]
  rw [h1, cursorAt_cursorAt, Nat.add_comm]

theorem slotAt_succ (c : UInt32) (j : Nat) :
    slotAt job T (c + T) j = slotAt job T c (j + 1) := by
  rw [slotAt, slotAt, cursorAt_succ]

theorem slotAt_cursorAt (c : UInt32) (a b : Nat) :
    slotAt job T (cursorAt T c a) b = slotAt job T c (a + b) := by
  rw [slotAt, slotAt, cursorAt_cursorAt]

variable {job T}

theorem Within.mono {c : UInt32} {k k' : Nat} (h : Within job T c k) (hk : k' ≤ k) :
    Within job T c k' :=
  fun j hj => h j (by omega)

theorem Within.tail {c : UInt32} {k : Nat} (h : Within job T c (k + 1)) :
    Within job T (c + T) k := by
  intro j hj
  rw [cursorAt_succ]
  exact h (j + 1) (by omega)

theorem within_add {c : UInt32} {a b : Nat} :
    Within job T c (a + b) ↔ Within job T c a ∧ Within job T (cursorAt T c a) b := by
  constructor
  · refine fun h => ⟨h.mono (by omega), fun j hj => ?_⟩
    rw [cursorAt_cursorAt]
    exact h (a + j) (by omega)
  · rintro ⟨ha, hb⟩ j hj
    by_cases hja : j < a
    · exact ha j hja
    · have := hb (j - a) (by omega)
      rwa [cursorAt_cursorAt, Nat.add_sub_cancel' (by omega)] at this

/-- Either the first `k` cursors are within the mask, or one of them is the
first that is not. -/
theorem within_or_stop (job : Job) (T c : UInt32) (k : Nat) :
    Within job T c k ∨
      ∃ r < k, Within job T c r ∧ job.nonceMask < cursorAt T c r := by
  induction k with
  | zero => exact Or.inl fun j hj => absurd hj (by omega)
  | succ k ih =>
      rcases ih with hw | ⟨r, hr, hw, hstop⟩
      · by_cases hk : cursorAt T c k ≤ job.nonceMask
        · refine Or.inl fun j hj => ?_
          rcases Nat.lt_succ_iff_lt_or_eq.mp hj with h | rfl
          · exact hw j h
          · exact hk
        · exact Or.inr ⟨k, by omega, hw, UInt32.not_le.mp hk⟩
      · exact Or.inr ⟨r, by omega, hw, hstop⟩

/-! ## One round -/

theorem fillPipeline_within (blobs : List Bytes) (c : UInt32)
    (hb : ∀ buffer ∈ blobs, LikeTemplate job buffer)
    (hw : Within job T c blobs.length) :
    fillPipeline job.nonceMask T c blobs =
      { nonce := cursorAt T c blobs.length
        blobs := (List.range blobs.length).map fun j => (slotAt job T c j).1
        nonces := (List.range blobs.length).map fun j => (slotAt job T c j).2
        exhausted := false } := by
  induction blobs generalizing c with
  | nil => simp [fillPipeline, cursorAt_zero]
  | cons blob blobs ih =>
      have h0 : ¬ c > job.nonceMask := by
        have := hw 0 (by simp)
        rw [cursorAt_zero] at this
        exact UInt32.not_lt.mpr this
      have hslot : fillSlot job.nonceMask c blob = slotAt job T c 0 := by
        rw [slotAt, cursorAt_zero]
        exact hb blob (by simp) c
      have hrest := ih (c + T) (fun b h => hb b (by simp [h])) hw.tail
      simp only [fillPipeline, if_neg h0, hrest, hslot, List.length_cons,
        List.range_succ_eq_map, List.map_cons, List.map_map, cursorAt_succ, slotAt_succ]
      rfl

theorem fillPipeline_stop (blobs : List Bytes) (c : UInt32) (r : Nat)
    (hb : ∀ buffer ∈ blobs, LikeTemplate job buffer) (hr : r < blobs.length)
    (hw : Within job T c r) (hstop : job.nonceMask < cursorAt T c r) :
    (fillPipeline job.nonceMask T c blobs).exhausted = true ∧
      (fillPipeline job.nonceMask T c blobs).nonce = cursorAt T c r ∧
      (fillPipeline job.nonceMask T c blobs).blobs.length = blobs.length ∧
      ∀ buffer ∈ (fillPipeline job.nonceMask T c blobs).blobs, LikeTemplate job buffer := by
  induction blobs generalizing c r with
  | nil => simp at hr
  | cons blob blobs ih =>
      cases r with
      | zero =>
          rw [cursorAt_zero] at hstop ⊢
          simp only [fillPipeline, if_pos (show c > job.nonceMask from hstop)]
          exact ⟨trivial, trivial, trivial, hb⟩
      | succ r =>
          have h0 : ¬ c > job.nonceMask := by
            have := hw 0 (by omega)
            rw [cursorAt_zero] at this
            exact UInt32.not_lt.mpr this
          rw [← cursorAt_succ] at hstop ⊢
          obtain ⟨he, hn, hl, ht⟩ := ih (c + T) r (fun b h => hb b (by simp [h]))
            (by simpa using hr) hw.tail hstop
          simp only [fillPipeline, if_neg h0, List.length_cons, hl, List.mem_cons]
          refine ⟨he, hn, trivial, ?_⟩
          rintro buffer (rfl | hm)
          · exact (hb blob (by simp)).fill c
          · exact ht buffer hm

/-! ## Stretches of mining -/

/-- A stretch of at most `limit` rounds from cursor `c` that completed `q` of
them. -/
structure Swept (job : Job) (T : UInt32) (limit q : Nat) (c : UInt32) (batch : Batch) :
    Prop where
  le : q ≤ limit
  hashed : batch.hashed = (List.range (pipelineSize * q)).map fun j => (slotAt job T c j).1
  shares : batch.shares
    = (List.range (pipelineSize * q)).filterMap fun j => shareOf hash job (slotAt job T c j)
  buffers : BuffersOf job batch.blobs
  cursor :
    (q = limit ∧ Within job T c (pipelineSize * q) ∧
      batch.nonce = cursorAt T c (pipelineSize * q)) ∨
    ∃ r < pipelineSize, Within job T c (pipelineSize * q + r) ∧
      job.nonceMask < cursorAt T c (pipelineSize * q + r) ∧
      batch.nonce = cursorAt T c (pipelineSize * q + r)

variable {hash}

/-- A stretch that stopped early has stopped for any larger limit. -/
theorem Swept.of_stop {limit limit' q : Nat} {c : UInt32} {batch : Batch}
    (h : Swept hash job T limit q c batch) (hstop : job.nonceMask < batch.nonce)
    (hle : limit ≤ limit') : ∃ q', Swept hash job T limit' q' c batch := by
  obtain ⟨hq, hh, hs, hb, hc⟩ := h
  refine ⟨q, ⟨by omega, hh, hs, hb, Or.inr ?_⟩⟩
  rcases hc with ⟨_, hw, hn⟩ | hr
  · exact ⟨0, by simp [pipelineSize], by simpa using hw, by simpa [← hn] using hstop,
      by simpa using hn⟩
  · exact hr

/-- A stretch that starts above the mask does nothing. -/
theorem Swept.idle {limit q : Nat} {c : UInt32} {batch : Batch}
    (h : Swept hash job T limit q c batch) (hc : job.nonceMask < c) :
    q = 0 ∧ batch.nonce = c := by
  have hnone : ∀ k, Within job T c k → k = 0 := by
    intro k hw
    by_contra hk
    have h0 := hw 0 (by omega)
    rw [cursorAt_zero] at h0
    exact absurd hc (UInt32.not_lt.mpr h0)
  rcases h.cursor with ⟨_, hw, hn⟩ | ⟨r, _, hw, _, hn⟩
  · have := hnone _ hw
    refine ⟨by simp only [pipelineSize] at this; omega, ?_⟩
    rw [hn, this, cursorAt_zero]
  · have := hnone _ hw
    refine ⟨by simp only [pipelineSize] at this; omega, ?_⟩
    rw [hn, this, cursorAt_zero]

theorem Swept.append {limit limit' q q' : Nat} {c : UInt32} {first second : Batch}
    (h : Swept hash job T limit q c first)
    (h' : Swept hash job T limit' q' first.nonce second) :
    ∃ q'', Swept hash job T (limit + limit') q'' c (first.append second) := by
  rcases h.cursor with ⟨hq, hw, hn⟩ | ⟨r, hr, hw, hstop, hn⟩
  · -- the first stretch ran to its limit: the slots of the second follow its own
    have hsplit : pipelineSize * (q + q') = pipelineSize * q + pipelineSize * q' :=
      Nat.mul_add ..
    have hassoc : ∀ k, pipelineSize * q + pipelineSize * q' + k
        = pipelineSize * q + (pipelineSize * q' + k) := fun k => Nat.add_assoc ..
    rw [hn] at h'
    obtain ⟨hle, hh, hs, hb, hc⟩ := h'
    refine ⟨q + q', ⟨by omega, ?_, ?_, hb, ?_⟩⟩
    · simp only [Batch.append, h.hashed, hh, hsplit, List.range_add, List.map_append,
        List.map_map, slotAt_cursorAt]
      rfl
    · simp only [Batch.append, h.shares, hs, hsplit, List.range_add, List.filterMap_append,
        List.filterMap_map, slotAt_cursorAt]
      rfl
    · rcases hc with ⟨hq', hw', hn'⟩ | ⟨r, hr, hw', hstop, hn'⟩
      · refine Or.inl ⟨by omega, ?_, ?_⟩
        · rw [hsplit, within_add]
          exact ⟨hw, hw'⟩
        · rw [hsplit, ← cursorAt_cursorAt]
          exact hn'
      · refine Or.inr ⟨r, hr, ?_, ?_, ?_⟩
        · rw [hsplit, hassoc, within_add]
          exact ⟨hw, hw'⟩
        · rw [hsplit, hassoc, ← cursorAt_cursorAt]
          exact hstop
        · rw [hsplit, hassoc, ← cursorAt_cursorAt]
          exact hn'
  · -- the first stretch stopped above the mask: the second one is idle
    obtain ⟨rfl, hn'⟩ := h'.idle (hn ▸ hstop)
    refine ⟨q, ⟨Nat.le_add_right_of_le h.le, ?_, ?_, h'.buffers, Or.inr ⟨r, hr, hw, hstop, ?_⟩⟩⟩
    · simpa [Batch.append, h'.hashed] using h.hashed
    · simpa [Batch.append, h'.shares] using h.shares
    · rw [← hn]
      exact hn'

theorem mineRound_swept (hash : Bytes → Hash) (T c : UInt32) {blobs : List Bytes}
    (hb : BuffersOf job blobs) :
    ∃ q, Swept hash job T 1 q c (mineRound hash job T pipelineSize c blobs) ∧
      ((mineRound hash job T pipelineSize c blobs).exhausted = true →
        job.nonceMask < (mineRound hash job T pipelineSize c blobs).nonce) := by
  obtain ⟨hlen, hlike⟩ := hb
  have htake : blobs.take pipelineSize = blobs := by rw [← hlen, List.take_length]
  have hdrop : blobs.drop pipelineSize = [] := by rw [← hlen, List.drop_length]
  rcases within_or_stop job T c blobs.length with hw | ⟨r, hr, hw, hstop⟩
  · refine ⟨1, ⟨Nat.le_refl 1, ?_, ?_, ⟨?_, ?_⟩, Or.inl ⟨rfl, ?_, ?_⟩⟩, ?_⟩ <;>
      simp only [mineRound, htake, hdrop, fillPipeline_within blobs c hlike hw, Nat.mul_one,
        hlen, Bool.false_eq_true, if_false, List.append_nil, false_implies]
    · rw [List.zip_map', List.filterMap_map]
      rfl
    · simp
    · intro buffer hbuf
      obtain ⟨j, _, rfl⟩ := List.mem_map.mp hbuf
      exact fun n => fillSlot_fillSlot _ _ _ _
    · rw [← hlen]
      exact hw
  · obtain ⟨he, hn, hl, ht⟩ := fillPipeline_stop blobs c r hlike hr hw hstop
    refine ⟨0, ⟨Nat.zero_le 1, ?_, ?_, ⟨?_, ?_⟩, Or.inr ⟨r, by omega, ?_, ?_, ?_⟩⟩, ?_⟩ <;>
      simp only [mineRound, htake, hdrop, he, if_true, List.append_nil, Nat.mul_zero,
        Nat.zero_add, List.range_zero, List.map_nil, List.filterMap_nil, hn]
    · rw [hl, hlen]
    · exact ht
    · exact hw
    · exact hstop
    · exact fun _ => hstop

/-! ## Batches -/

theorem mineRounds_swept (hash : Bytes → Hash) (T : UInt32) (m : Nat) :
    ∀ (fuel : Nat) (c : UInt32) (blobs : List Bytes), m ≤ fuel → BuffersOf job blobs →
      ∃ q, Swept hash job T m q c
        (mineRounds hash job T fuel (pipelineSize * m) c blobs) := by
  induction m with
  | zero =>
      intro fuel c blobs _ hb
      refine ⟨0, ?_⟩
      have hidle : mineRounds hash job T fuel (pipelineSize * 0) c blobs
          = { nonce := c, blobs, hashed := [], shares := [], exhausted := false } := by
        cases fuel <;> simp [mineRounds]
      rw [hidle]
      exact ⟨Nat.le_refl 0, by simp, by simp, hb,
        Or.inl ⟨rfl, fun j hj => absurd hj (by simp), by simp [cursorAt_zero]⟩⟩
  | succ m ih =>
      intro fuel c blobs hfuel hb
      obtain ⟨f, rfl⟩ : ∃ f, fuel = f + 1 := ⟨fuel - 1, by omega⟩
      have hmin : min (pipelineSize * (m + 1)) pipelineSize = pipelineSize := by
        simp only [pipelineSize]
        omega
      have hsub : pipelineSize * (m + 1) - pipelineSize = pipelineSize * m := by
        simp only [pipelineSize]
        omega
      have hne : pipelineSize * (m + 1) ≠ 0 := by simp [pipelineSize]
      obtain ⟨q, hround, hstop⟩ := mineRound_swept hash T c hb
      simp only [mineRounds, if_neg hne, hmin, hsub]
      split
      · next he => exact hround.of_stop (hstop he) (by omega)
      · obtain ⟨q', hrest⟩ := ih f _ _ (by omega) hround.buffers
        rw [Nat.add_comm m 1]
        exact hround.append hrest

theorem mineOneBatch_swept (hash : Bytes → Hash) (T c : UInt32) {blobs : List Bytes}
    (hb : BuffersOf job blobs) :
    ∃ q, Swept hash job T 64 q c (mineOneBatch hash job T c blobs) :=
  mineRounds_swept hash T 64 batchSize c blobs (by simp [batchSize]) hb

/-- Any number of batches from a cursor: `64` rounds each at most. -/
theorem mineBatches_swept (hash : Bytes → Hash) (T : UInt32) (n : Nat) :
    ∀ (c : UInt32) (blobs : List Bytes), BuffersOf job blobs →
      ∃ q, Swept hash job T (64 * n) q c (mineBatches hash job T n c blobs) := by
  induction n with
  | zero =>
      intro c blobs hb
      exact ⟨0, ⟨Nat.le_refl 0, by simp [mineBatches], by simp [mineBatches], hb,
        Or.inl ⟨rfl, fun j hj => absurd hj (by simp), by simp [mineBatches, cursorAt_zero]⟩⟩⟩
  | succ n ih =>
      intro c blobs hb
      obtain ⟨q, hbatch⟩ := mineOneBatch_swept hash T c hb
      obtain ⟨q', hrest⟩ := ih _ _ hbatch.buffers
      rw [Nat.mul_succ, Nat.add_comm]
      exact hbatch.append hrest

end

/-! ## The law of the queued shares -/

/-- The share names its own nonce and its own hash: bytes 39..43 of the blob
are the nonce text, and the result text is the hash of the blob. -/
def ShareLaw (hash : Bytes → Hash) (job : Job) (share : MinedShare) : Prop :=
  share.jobId = job.jobId ∧
    ∃ blob, Base16.decode share.blob = some blob ∧
      Base16.encode (Bytes.window blob nonceOffset 4) = share.nonce ∧
      share.result = Base16.encode (hash blob).val

section

variable {hash : Bytes → Hash} {job : Job} {T c : UInt32}

/-- What `shareOf` makes of a slot. -/
theorem shareOf_eq_some {slot : Bytes × UInt32} {share : MinedShare}
    (h : shareOf hash job slot = some share) :
    checkHashDifficulty (hash slot.1).val job.difficulty = true ∧
      share = { jobId := job.jobId, nonce := formatNonce slot.2
                result := Base16.encode (hash slot.1).val
                blob := Base16.encode slot.1 } := by
  simp only [shareOf] at h
  split at h
  · next hcheck => exact ⟨hcheck, (Option.some.inj h).symm⟩
  · cases h

/-- A slot of a blob with a nonce field holds the nonce it names. -/
theorem shareLaw_of_le (hlen : 43 ≤ job.blobBytes.length) {j : Nat} {share : MinedShare}
    (h : shareOf hash job (slotAt job T c j) = some share) : ShareLaw hash job share := by
  obtain ⟨_, rfl⟩ := shareOf_eq_some h
  refine ⟨rfl, (slotAt job T c j).1, Base16.decode_encode _, ?_, rfl⟩
  rw [slotAt, fillSlot_of_le hlen]
  simp only [window_stamp hlen, formatNonce]

/-- A blob without a nonce field has fewer than four bytes there, and the
nonce text always has eight digits. -/
theorem not_shareLaw_of_lt (hlen : job.blobBytes.length < 43) {j : Nat}
    {share : MinedShare} (h : shareOf hash job (slotAt job T c j) = some share) :
    ¬ ShareLaw hash job share := by
  obtain ⟨_, rfl⟩ := shareOf_eq_some h
  rintro ⟨_, blob, hdecode, hnonce, _⟩
  rw [slotAt, fillSlot_of_lt hlen, Base16.decode_encode] at hdecode
  obtain rfl := Option.some.inj hdecode
  have hwindow : (Bytes.window job.blobBytes nonceOffset 4).length < 4 :=
    Bytes.length_window_lt (by omega) (by simpa [nonceOffset] using hlen)
  have hlength := congrArg (fun text => text.toList.length) hnonce
  simp only [formatNonce, Base16.length_encode, length_u32ToLe] at hlength
  omega

/-- With the full mask no cursor is above it, and a stretch of mining runs to
its limit. -/
theorem Swept.eq_limit {limit q : Nat} {batch : Batch} (hnice : job.nicehash = false)
    (h : Swept hash job T limit q c batch) : q = limit := by
  rcases h.cursor with ⟨hq, _⟩ | ⟨r, _, _, hstop, _⟩
  · exact hq
  · rw [Job.nonceMask_of_not_nicehash hnice] at hstop
    have := UInt32.lt_iff_toNat_lt.mp hstop
    have := (cursorAt T c (pipelineSize * q + r)).toNat_lt
    rw [toNat_u32Max] at *
    omega

/-- A short blob whose hash passes the test is queued as a share by the very
first slot of a batch. -/
theorem exists_share_of_short (T c : UInt32) (hjob : job.Accepted)
    (hlen : job.blobBytes.length < 43)
    (hcheck : checkHashDifficulty (hash job.blobBytes).val job.difficulty = true) :
    ∃ share ∈ (mineBatches hash job T 1 c (templateBuffers job)).shares,
      shareOf hash job (slotAt job T c 0) = some share := by
  obtain ⟨q, hswept⟩ := mineBatches_swept hash T 1 c _
    (buffersOf_templateBuffers job)
  have hq := hswept.eq_limit (hjob.nicehash_of_short hlen)
  have hslot : slotAt job T c 0 = (job.blobBytes, 0) := fillSlot_of_lt hlen _ _
  have hsome : (shareOf hash job (slotAt job T c 0)).isSome = true := by
    simp [hslot, shareOf, hcheck]
  obtain ⟨share, hshare⟩ := Option.isSome_iff_exists.mp hsome
  refine ⟨share, ?_, hshare⟩
  rw [hswept.shares, List.mem_filterMap]
  exact ⟨0, by simp [hq, pipelineSize], hshare⟩

end

/-- The shares of an accepted job obey the law, however many batches are
mined from whatever cursor, exactly when the blob has a nonce field or its
hash as it stands is no share. -/
theorem mined_share_law_iff (hash : Bytes → Hash) {job : Job} (hjob : job.Accepted)
    (T c : UInt32) :
    (∀ n, ∀ share ∈ (mineBatches hash job T n c (templateBuffers job)).shares,
        ShareLaw hash job share) ↔
      43 ≤ job.blobBytes.length ∨
        checkHashDifficulty (hash job.blobBytes).val job.difficulty = false := by
  constructor
  · intro hlaw
    by_contra hno
    rw [not_or, Bool.not_eq_false] at hno
    obtain ⟨share, hmem, hshare⟩ :=
      exists_share_of_short T c hjob (by omega) hno.2
    exact not_shareLaw_of_lt (by omega) hshare (hlaw 1 share hmem)
  · intro hgood n share hmem
    obtain ⟨q, hswept⟩ := mineBatches_swept hash T n c _
      (buffersOf_templateBuffers job)
    rw [hswept.shares, List.mem_filterMap] at hmem
    obtain ⟨j, _, hshare⟩ := hmem
    by_cases hlen : 43 ≤ job.blobBytes.length
    · exact shareLaw_of_le hlen hshare
    · -- a short blob is hashed as it stands, and that hash is no share
      have hcheck := hgood.resolve_left hlen
      have hblob := (shareOf_eq_some hshare).1
      rw [slotAt, fillSlot_of_lt (by omega), hcheck] at hblob
      cases hblob

/-- Every hash zero: the best possible share. -/
def zeroHash : Bytes → Hash := fun _ => ⟨List.replicate hashSize 0, rfl⟩

/-- A job with an empty blob, as the pool parser accepts it. -/
def emptyBlobJob : Job :=
  { jobId := "j", blob := "", target := "ffffffff", algo := "rx/0", height := none
    seedHash := none, blockTemplateBlob := none, blobBytes := [], difficulty := 1
    nicehash := false }

theorem emptyBlobJob_accepted : emptyBlobJob.Accepted :=
  .notify (show Job.fromNotify
    [.string "j", .string "", .string "ffffffff", .string "rx/0"] = _ from rfl)

/-- A job whose blob is just long enough for the nonce field. -/
def zeroBlobJob : Job :=
  { jobId := "j", blob := Base16.encode (List.replicate 43 0), target := "ffffffff"
    algo := "rx/0", height := none, seedHash := none, blockTemplateBlob := none
    blobBytes := List.replicate 43 0, difficulty := 1, nicehash := false }

theorem zeroBlobJob_accepted : zeroBlobJob.Accepted :=
  .notify (show Job.fromNotify
    [.string "j", .string (Base16.encode (List.replicate 43 0)), .string "ffffffff",
      .string "rx/0"] = _ from rfl)

theorem mined_share_law_zero_blob :
    zeroBlobJob.Accepted ∧
      ∀ n, ∀ share ∈ (mineBatches zeroHash zeroBlobJob 1 n 0
        (templateBuffers zeroBlobJob)).shares, ShareLaw zeroHash zeroBlobJob share :=
  ⟨zeroBlobJob_accepted,
    (mined_share_law_iff zeroHash zeroBlobJob_accepted 1 0).mpr (Or.inl (by decide))⟩

/-- The first slot of the empty blob already breaks the law. -/
theorem mined_share_law_fails :
    emptyBlobJob.Accepted ∧
      ∃ share ∈ (mineBatches zeroHash emptyBlobJob 1 1 0
        (templateBuffers emptyBlobJob)).shares, ¬ ShareLaw zeroHash emptyBlobJob share := by
  have hcheck : checkHashDifficulty (zeroHash emptyBlobJob.blobBytes).val
      emptyBlobJob.difficulty = true := by decide
  obtain ⟨share, hmem, hshare⟩ :=
    exists_share_of_short 1 0 emptyBlobJob_accepted (by decide) hcheck
  exact ⟨emptyBlobJob_accepted, share, hmem, not_shareLaw_of_lt (by decide) hshare⟩

end LiteXmr
