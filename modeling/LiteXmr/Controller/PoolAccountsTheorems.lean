/-
LiteXmr.Controller.PoolAccountsTheorems — what the pool and the miner make of the shares.

`Talk` is the invariant of what is said: the conversation is in its place, and the
ids in use are ones that the pool has given out. By it a line that the pool reads is a
share of a worker (`Genuine`), and `Shares` follows the shares: from the queues
over the connection into the pool's books, and back from there as events into the counters.
`shares_settled_once` puts the two together.
-/
import Mathlib.Data.List.Count
import Mathlib.Data.List.Perm.Basic
import LiteXmr.Controller.PoolMiningTheorems

namespace LiteXmr.Pool

open JsonText Lts Stratum

/-! ## What a step can be -/

inductive MiningMoves (cc : ClientConfig) (mc : MinerConfig) (s : MiningState) :
    MiningInput → MiningState → List PoolObs → Prop where
  | own {i : PoolInput} {miner : PoolState} {os : List PoolObs} (hi : isLine i = false)
      (hs : poolStep cc mc s.miner i = some (miner, os)) :
      MiningMoves cc mc s (.miner i) (s.follow miner os) os
  | deliver {message : PoolMessage} {rest : List PoolMessage} {miner : PoolState}
      {os : List PoolObs} (hm : s.toMiner = message :: rest)
      (hs : poolStep cc mc s.miner (.client (.read (.line message.text))) = some (miner, os)) :
      MiningMoves cc mc s .deliver ({ s with toMiner := rest }.follow miner os) os
  | serve {members : List (String × Json)} {line : String} {rest : List String}
      (hl : s.toPool = line :: rest) :
      MiningMoves cc mc s (.serve members)
        { s with
          node := (s.node.serve members line).1, toPool := rest
          toMiner := s.toMiner ++ (s.node.serve members line).2 } []
  | notify {members : List (String × Json)} (hphase : s.miner.client.phase.connected = true) :
      MiningMoves cc mc s (.notify members)
        { s with
          node := { s.node with said := s.node.said ++ [.object members] }
          toMiner := s.toMiner ++ [.notice (.object members)] } []
  | serveLate {k : Nat} {members : List (String × Json)} {line : String}
      (hl : s.late[k]? = some line) :
      MiningMoves cc mc s (.serveLate k members)
        { s with
          node := (s.node.serve members line).1, late := s.late.eraseIdx k
          lost := s.lost ++ (s.node.serve members line).2 } []
  | loseLate {k : Nat} (hk : k < s.late.length) :
      MiningMoves cc mc s (.loseLate k) { s with late := s.late.eraseIdx k } []

theorem miningMoves_of_step {cc : ClientConfig} {mc : MinerConfig} {s s' : MiningState}
    {i : MiningInput} {os : List PoolObs} (h : miningStep cc mc s i = some (s', os)) :
    MiningMoves cc mc s i s' os := by
  cases i with
  | miner i =>
      simp only [miningStep] at h
      split at h
      · cases h
      · next hi =>
          split at h
          · next miner mos hs =>
              cases h
              exact .own (by simpa using hi) hs
          · cases h
  | deliver =>
      simp only [miningStep] at h
      split at h
      · cases h
      · next message rest hm =>
          split at h
          · next miner mos hs =>
              cases h
              exact .deliver hm hs
          · cases h
  | serve members =>
      simp only [miningStep] at h
      split at h
      · cases h
      · next line rest hl =>
          cases h
          exact .serve hl
  | notify members =>
      simp only [miningStep] at h
      split at h
      · next hphase =>
          cases h
          exact .notify hphase
      · cases h
  | serveLate k members =>
      simp only [miningStep] at h
      split at h
      · cases h
      · next line hl =>
          cases h
          exact .serveLate hl
  | loseLate k =>
      simp only [miningStep] at h
      split at h
      · next hk =>
          cases h
          exact .loseLate hk
      · cases h

/-! ## Shares of batches -/

/-- Hashing a blob of the job gave the share. -/
def HashedShare (mc : MinerConfig) (job : Job) (share : MinedShare) : Prop :=
  ∃ dataset slot, shareOf (mc.hash dataset) job slot = some share

theorem shareOf_of_mem_mineRounds {hash : Bytes → Hash} {job : Job} {T : UInt32} {fuel : Nat} :
    ∀ {remaining : Nat} {nonce : UInt32} {blobs : List Bytes},
      ∀ share ∈ (mineRounds hash job T fuel remaining nonce blobs).shares,
        ∃ slot, shareOf hash job slot = some share := by
  have hround : ∀ {count : Nat} {nonce : UInt32} {blobs : List Bytes},
      ∀ share ∈ (mineRound hash job T count nonce blobs).shares,
        ∃ slot, shareOf hash job slot = some share := by
    intro count nonce blobs share hmem
    simp only [mineRound] at hmem
    split at hmem
    · cases hmem
    · obtain ⟨slot, -, hshare⟩ := List.mem_filterMap.mp hmem
      exact ⟨slot, hshare⟩
  induction fuel with
  | zero =>
      intro remaining nonce blobs share hmem
      cases hmem
  | succ fuel ih =>
      intro remaining nonce blobs share hmem
      simp only [mineRounds] at hmem
      split at hmem
      · cases hmem
      · split at hmem
        · exact hround share hmem
        · rcases List.mem_append.mp hmem with hm | hm
          · exact hround share hm
          · exact ih share hm

section Batches

variable {cc : ClientConfig} {mc : MinerConfig} {s s' : PoolState} {i : PoolInput}
  {tr os : List PoolObs}

/-- The observations of the threads are those of one of their steps. -/
theorem minerStep_of_poolStep {o : MinerObs} (hs : poolStep cc mc s i = some (s', os))
    (ho : .miner o ∈ os) :
    ∃ m j m' mos, minerStep mc m j = some (m', mos) ∧ o ∈ mos := by
  cases poolMoves_of_step hs with
  | client _ _ _ _ => simp at ho
  | publish _ _ _ _ hm => exact ⟨_, _, _, _, hm, by simpa using ho⟩
  | miner _ _ hm => exact ⟨_, _, _, _, hm, by simpa using ho⟩
  | @recvShare found rest _ hq =>
      refine ⟨s.miner, .pop, { s.miner with mined := rest }, [.popped found], ?_, by simpa using ho⟩
      simp only [minerStep, hq]
  | _ => simp at ho

theorem hashed_of_run {is : List PoolInput} {ok : PoolState → PoolInput → Prop}
    (h : Run (poolStep cc mc) ok (.start cc mc) is s tr) :
    ∀ w job vm nonce blobs result, .miner (.batch w job vm nonce blobs result) ∈ tr →
      ∀ share ∈ result.shares, HashedShare mc job share := by
  induction h with
  | nil => simp
  | snoc _ _ hs ih =>
      intro w job vm nonce blobs result hmem share hshare
      rcases List.mem_append.mp hmem with hmem | hmem
      · exact ih w job vm nonce blobs result hmem share hshare
      · obtain ⟨m, j, m', mos, hm, ho⟩ := minerStep_of_poolStep hs hmem
        obtain ⟨pre, post, hmos⟩ := List.append_of_mem ho
        obtain ⟨-, -, -, -, -, rfl⟩ := batch_of_step hm hmos
        obtain ⟨slot, hslot⟩ := shareOf_of_mem_mineRounds share hshare
        exact ⟨vm.dataset, slot, hslot⟩

theorem isHex_encode (bs : Bytes) : Base16.IsHex (Base16.encode bs) :=
  ((Base16.decode_isSome_iff _).mp (by rw [Base16.decode_encode]; rfl)).1

theorem HashedShare.isHex {job : Job} {share : MinedShare} (h : HashedShare mc job share) :
    Base16.IsHex share.nonce ∧ Base16.IsHex share.result := by
  obtain ⟨dataset, slot, hshare⟩ := h
  obtain ⟨-, rfl⟩ := shareOf_eq_some hshare
  exact ⟨isHex_encode _, isHex_encode _⟩

end Batches

/-! ## What the pool makes of a line -/

/-- The pool reads the line as a request with a number. -/
def Understood (line : String) : Prop :=
  ∃ (id : UInt64) (share : Option ReadShare),
    readRequest line = some { id := .number (.posInt id), share }

inductive Serves (node : PoolNode) (members : List (String × Json)) (line : String) :
    PoolNode → List PoolMessage → Prop where
  | login {id : UInt64}
      (hline : readRequest line = some { id := .number (.posInt id), share := none }) :
      Serves node members line
        { node with said := node.said ++ [answerWith (.number (.posInt id)) members] }
        [.greeting (answerWith (.number (.posInt id)) members)]
  | takes {id : UInt64} {share : ReadShare}
      (hline : readRequest line = some { id := .number (.posInt id), share := some share })
      (hok : withoutError members = true) :
      Serves node members line
        { node with
          said := node.said ++ [answerWith (.number (.posInt id)) members]
          taken := node.taken ++ [share] }
        [.verdict true (answerWith (.number (.posInt id)) members)]
  | refuses {id : UInt64} {share : ReadShare}
      (hline : readRequest line = some { id := .number (.posInt id), share := some share })
      (hok : withoutError members = false) :
      Serves node members line
        { node with
          said := node.said ++ [answerWith (.number (.posInt id)) members]
          refused := node.refused ++ [share] }
        [.verdict false (answerWith (.number (.posInt id)) members)]

section Serves

variable {config : LoginConfig} {node node' : PoolNode} {members : List (String × Json)}
  {line : String} {lines : List String} {messages answer : List PoolMessage} {phase : Phase}

theorem serves_of_understood (node : PoolNode) (members : List (String × Json))
    (h : Understood line) :
    Serves node members line (node.serve members line).1 (node.serve members line).2 := by
  obtain ⟨id, share, hline⟩ := h
  simp only [PoolNode.serve, hline]
  cases share with
  | none => exact .login hline
  | some share =>
      cases hok : withoutError members with
      | true => exact .takes hline hok
      | false => exact .refuses hline hok

/-- What has been said stays said. -/
theorem Serves.said (h : Serves node members line node' answer) {msg : Json}
    (hmsg : msg ∈ node.said) : msg ∈ node'.said := by
  cases h <;> exact List.mem_append_left _ hmsg

theorem Serves.sound {cc : ClientConfig} (h : Serves node members line node' answer)
    (hplain : PlainAnswer cc members) :
    ∀ message ∈ answer, message.Sound cc ∧ message.msg ∈ node'.said := by
  cases h with
  | login _ => simpa [PoolMessage.msg] using PoolMessage.Sound.greeting hplain _
  | takes _ hok =>
      have hsound := PoolMessage.Sound.verdict hplain
      rw [hok] at hsound
      simpa [PoolMessage.msg] using hsound _
  | refuses _ hok =>
      have hsound := PoolMessage.Sound.verdict hplain
      rw [hok] at hsound
      simpa [PoolMessage.msg] using hsound _

theorem understood_login (hfigures : Figures config.algoPerf) (id : UInt64) (p : LoginProfile) :
    Understood (loginLine config id p) :=
  ⟨id, none, readRequest_login hfigures id p⟩

theorem IsSubmit.understood (h : IsSubmit line) : Understood line := by
  obtain ⟨id, share, hline⟩ := h
  exact ⟨id, some share, hline⟩

/-- The pool understands every line of the conversation. -/
theorem Conversation.understood (h : Conversation config phase lines messages)
    (hfigures : Figures config.algoPerf) : ∀ line ∈ lines, Understood line := by
  cases h with
  | silent _ | greeted _ _ _ _ | keepalive _ => simp
  | asking _ _ => exact List.forall_mem_singleton.mpr (understood_login hfigures _ _)
  | mining _ hlines _ => exact fun line hmem => (hlines line hmem).understood

theorem Conversation.serve {cc : ClientConfig}
    (h : Conversation cc.login phase (line :: lines) messages)
    (hfigures : Figures cc.login.algoPerf) (hplain : PlainAnswer cc members)
    (hserves : Serves node members line node' answer) :
    Conversation cc.login phase lines (messages ++ answer) := by
  generalize hq : line :: lines = queue at h
  cases h with
  | silent _ | greeted _ _ _ _ | keepalive _ => cases hq
  | asking hphase hnotices =>
      cases hq
      have hlogin := readRequest_login hfigures
      cases hserves with
      | login hline =>
          rw [hlogin, Option.some.injEq] at hline
          cases hline
          exact .greeted hphase (get_answerWith_id hplain _) hnotices (by simp)
      | takes hline _ | refuses hline _ =>
          rw [hlogin, Option.some.injEq] at hline
          cases hline
  | mining hphase hlines hmessages =>
      subst hq
      obtain ⟨⟨id, share, hline'⟩, hrest⟩ := List.forall_mem_cons.mp hlines
      refine .mining hphase hrest (List.forall_mem_append.mpr ⟨hmessages, ?_⟩)
      cases hserves with
      | login hline =>
          rw [hline', Option.some.injEq] at hline
          cases hline
      | takes _ _ | refuses _ _ => simp [PoolMessage.isGreeting]

end Serves

/-! ## What is said -/

/-- The pool has given out the session id. -/
structure Granted (node : PoolNode) (sid : String) : Prop where
  said : ∃ msg ∈ node.said, (loginResult (ordered msg)).1 = sid
  plain : Plain sid.toList

structure Offered (node : PoolNode) (job : Job) : Prop where
  said : ∃ msg ∈ node.said, JobOfMessage (ordered msg) job ∨ JobOfLogin (ordered msg) job
  plain : Plain job.jobId.toList

/-- The share is one that a worker found by hashing, on a job of the pool, and it is
submitted in a session of the pool. -/
structure Genuine (mc : MinerConfig) (node : PoolNode) (tr : List PoolObs) (share : ReadShare) :
    Prop where
  session : Granted node share.sessionId
  found : ∃ job mined, MinedOn tr job mined ∧ HashedShare mc job mined ∧ Offered node job ∧
    share.submission = Submission.ofShare mined

/-- The invariant of what is said. -/
structure Talk (cc : ClientConfig) (mc : MinerConfig) (s : MiningState) (tr : List PoolObs) :
    Prop where
  run : ∃ js, Run (poolStep cc mc) (fun _ _ => True) (.start cc mc) js s.miner tr
  alive : s.miner.client.phase.crashed = false
  conversation : Conversation cc.login s.miner.client.phase s.toPool s.toMiner
  late : ∀ line ∈ s.late, Understood line
  messages : ∀ message ∈ s.toMiner, message.Sound cc ∧ message.msg ∈ s.node.said
  session : ∀ sid, s.miner.client.phase.sessionId = some sid → Granted s.node sid
  jobs : ∀ job ∈ publishedJobs (clientTrace tr), Offered s.node job

/-- What the pool does is plain. -/
def Plainly (cc : ClientConfig) (_ : MiningState) : MiningInput → Prop
  | .serve members | .serveLate _ members => PlainAnswer cc members
  | .notify members => PlainNotice cc members
  | _ => True

section Talk

variable {cc : ClientConfig} {mc : MinerConfig} {s s' : MiningState} {i : MiningInput}
  {tr os : List PoolObs} {node : PoolNode}

theorem talk_start : Talk cc mc (.start cc mc) [] where
  run := ⟨[], Run.nil⟩
  alive := rfl
  conversation := .silent rfl
  late := by simp [MiningState.start]
  messages := by simp [MiningState.start]
  session := by simp [MiningState.start, PoolState.start, Client.start, Phase.sessionId]
  jobs := by simp [clientTrace, publishedJobs]

theorem Granted.mono {sid : String} (h : Granted s.node sid)
    (hsaid : ∀ msg ∈ s.node.said, msg ∈ node.said) : Granted node sid where
  said := by
    obtain ⟨msg, hmsg, hsid⟩ := h.said
    exact ⟨msg, hsaid msg hmsg, hsid⟩
  plain := h.plain

theorem Offered.mono {job : Job} (h : Offered s.node job)
    (hsaid : ∀ msg ∈ s.node.said, msg ∈ node.said) : Offered node job where
  said := by
    obtain ⟨msg, hmsg, hjob⟩ := h.said
    exact ⟨msg, hsaid msg hmsg, hjob⟩
  plain := h.plain

theorem Genuine.mono {share : ReadShare} (h : Genuine mc s.node tr share)
    (hsaid : ∀ msg ∈ s.node.said, msg ∈ node.said) : Genuine mc node tr share where
  session := h.session.mono hsaid
  found := by
    obtain ⟨job, mined, hmined, hhashed, hoffered, hshare⟩ := h.found
    exact ⟨job, mined, hmined, hhashed, hoffered.mono hsaid, hshare⟩

theorem Genuine.append {share : ReadShare} (h : Genuine mc node tr share) (os : List PoolObs) :
    Genuine mc node (tr ++ os) share where
  session := h.session
  found := by
    obtain ⟨job, mined, hmined, hfound⟩ := h.found
    exact ⟨job, mined, hmined.append os, hfound⟩

/-- A submit line is read by the pool for the share that it is, one of a worker. -/
theorem Talk.genuine (h : Talk cc mc s tr) {j : PoolInput} {miner : PoolState}
    (hs : poolStep cc mc s.miner j = some (miner, os)) {sid line : String} {id : UInt64}
    {submission : Submission} (hmem : .client (.submit sid id submission line) ∈ os) :
    readRequest line = some
        { id := .number (.posInt id), share := some { sessionId := sid, submission } } ∧
      Genuine mc s.node tr { sessionId := sid, submission } := by
  obtain ⟨js, hrun⟩ := h.run
  obtain ⟨pre, post, hos⟩ := List.append_of_mem hmem
  obtain ⟨-, hsubmit, hsid, rfl⟩ := submit_of_poolStep hs hos
  obtain ⟨job, mined, hmined, rfl⟩ := (sharesSound_of_run hrun).submits submission hsubmit
  obtain ⟨w, vm, nonce, blobs, result, hbatch, hshare⟩ := hmined.batch
  have hhashed := hashed_of_run hrun w job vm nonce blobs result hbatch mined hshare
  have hoffered : Offered s.node job := by
    refine h.jobs job (List.mem_filterMap.mpr ⟨.published job, ?_, rfl⟩)
    exact List.mem_filterMap.mpr ⟨_, hmined.delivered, rfl⟩
  have hgranted := h.session sid hsid
  have hjob : Plain mined.jobId.toList := by
    rw [hmined.jobId]
    exact hoffered.plain
  exact ⟨readRequest_submit hhashed.isHex.1 hhashed.isHex.2 hgranted.plain hjob id, hgranted,
    job, mined, hmined, hhashed, hoffered, rfl⟩

theorem filterMap_writtenLine (os : List PoolObs) :
    ((clientTrace os).map PoolObs.client).filterMap writtenLine = os.filterMap writtenLine := by
  rw [clientTrace, List.filterMap_map, List.filterMap_filterMap]
  refine congrArg (os.filterMap ·) (funext fun o => ?_)
  cases o <;> rfl

/-- What a step of the miner needs to keep the invariant. -/
theorem Talk.follow (h : Talk cc mc s tr) (hfigures : Figures cc.login.algoPerf) {j : PoolInput}
    {miner : PoolState} (messages : List PoolMessage)
    (hs : poolStep cc mc s.miner j = some (miner, os))
    (hmessages : ∀ message ∈ messages, message ∈ s.toMiner)
    (halive : miner.client.phase.crashed = false)
    (hconversation : miner.client.phase.connected = true →
      Conversation cc.login miner.client.phase (s.toPool ++ os.filterMap writtenLine) messages)
    (hsession : ∀ sid, miner.client.phase.sessionId = some sid → Granted s.node sid)
    (hjobs : ∀ job ∈ publishedJobs (clientTrace os), Offered s.node job) :
    Talk cc mc ({ s with toMiner := messages }.follow miner os) (tr ++ os) := by
  obtain ⟨js, hrun⟩ := h.run
  have hrun' : ∃ js, Run (poolStep cc mc) (fun _ _ => True) (.start cc mc) js miner (tr ++ os) :=
    ⟨_, hrun.snoc trivial hs⟩
  have hjobs' : ∀ job ∈ publishedJobs (clientTrace (tr ++ os)), Offered s.node job := by
    intro job hmem
    rw [clientTrace, List.filterMap_append, publishedJobs, List.filterMap_append] at hmem
    exact (List.mem_append.mp hmem).elim (h.jobs job) (hjobs job)
  rw [MiningState.follow]
  split
  · next hphase =>
      exact {
        run := hrun'
        alive := halive
        conversation := hconversation hphase
        late := h.late
        messages := fun message hmem => h.messages message (hmessages message hmem)
        session := hsession
        jobs := hjobs' }
  · next hphase =>
      exact {
        run := hrun'
        alive := halive
        conversation := .silent (by simpa using hphase)
        late := List.forall_mem_append.mpr ⟨h.late, h.conversation.understood hfigures⟩
        messages := by simp
        session := hsession
        jobs := hjobs' }

/-- A step of the miner in which the client reads no line. -/
theorem clientStep_of_own {j : PoolInput} {pool pool' : PoolState} (hj : isLine j = false)
    (hs : poolStep cc mc pool j = some (pool', os)) :
    (pool'.client = pool.client ∧ clientTrace os = []) ∨
      ∃ i, (∀ line, i ≠ .read (.line line)) ∧
        clientStep cc pool.client i = some (pool'.client, clientTrace os) := by
  rcases clientStep_of_poolStep hs with ⟨-, hclient, hos⟩ | ⟨i, hi, hc⟩
  · exact Or.inl ⟨hclient, hos⟩
  · refine Or.inr ⟨i, ?_, hc⟩
    rintro line rfl
    rcases hi with rfl | ⟨-, hi⟩
    · cases hj
    · cases hi

theorem Talk.own (h : Talk cc mc s tr) (hfigures : Figures cc.login.algoPerf) {j : PoolInput}
    {miner : PoolState} (hj : isLine j = false)
    (hs : poolStep cc mc s.miner j = some (miner, os)) :
    Talk cc mc (s.follow miner os) (tr ++ os) := by
  have hfollow := h.follow hfigures s.toMiner hs fun _ hmem => hmem
  have hsubmit : ∀ sid id submission line,
      .submit sid id submission line ∈ clientTrace os → IsSubmit line := by
    intro sid id submission line hmem
    obtain ⟨o, ho, hclient⟩ := List.mem_filterMap.mp hmem
    cases o <;> cases hclient
    exact ⟨id, _, (h.genuine hs ho).1⟩
  rcases clientStep_of_own hj hs with ⟨hc, hos⟩ | ⟨i, hi, hc⟩
  · refine hfollow ?_ (fun _ => ?_) ?_ ?_
    · rw [hc]
      exact h.alive
    · rw [hc, ← filterMap_writtenLine, hos, List.map_nil, List.filterMap_nil, List.append_nil]
      exact h.conversation
    · rw [hc]
      exact h.session
    · simp [hos, publishedJobs]
  · obtain ⟨-, hjobs, halive, hsession⟩ := quiet_of_step hi hc
    refine hfollow ?_ (fun hphase => ?_)
      (fun sid hsid => h.session sid (hsession sid hsid)) ?_
    · rw [Bool.eq_false_iff]
      exact fun hcrashed => Bool.eq_false_iff.mp h.alive (halive hcrashed)
    · rw [← filterMap_writtenLine]
      exact h.conversation.own hi hsubmit hc hphase
    · simp [hjobs]

theorem clientStep_of_deliver {line : String} {pool pool' : PoolState}
    (hs : poolStep cc mc pool (.client (.read (.line line))) = some (pool', os)) :
    clientStep cc pool.client (.read (.line line)) = some (pool'.client, clientTrace os) := by
  rcases clientStep_of_poolStep hs with ⟨hne, -, -⟩ | ⟨j, hj, hc⟩
  · exact absurd rfl (hne _)
  · rcases hj with hj | ⟨hne, -⟩
    · cases hj
      exact hc
    · exact absurd rfl (hne _)

/-- The client reads the next line of the pool. -/
theorem Talk.deliver (h : Talk cc mc s tr) (hfigures : Figures cc.login.algoPerf)
    {message : PoolMessage} {rest : List PoolMessage} {miner : PoolState}
    (hm : s.toMiner = message :: rest)
    (hs : poolStep cc mc s.miner (.client (.read (.line message.text))) = some (miner, os)) :
    Hears cc message s.toPool rest s.miner.client miner.client (clientTrace os) ∧
      Talk cc mc ({ s with toMiner := rest }.follow miner os) (tr ++ os) := by
  obtain ⟨hsound, hsaid⟩ := h.messages message (by simp [hm])
  have hconversation := h.conversation
  rw [hm] at hconversation
  have hears := hears_of_step hsound hconversation (clientStep_of_deliver hs)
  refine ⟨hears, h.follow hfigures rest hs (by simp_all) hears.alive (fun hphase => ?_)
    (fun sid hsid => ?_) fun job hjob => ?_⟩
  · rw [← filterMap_writtenLine, hears.written, List.append_nil]
    exact hears.conversation hphase
  · rcases hears.session sid hsid with hsid | ⟨hgreeting, hsid⟩
    · exact h.session sid hsid
    · refine ⟨⟨message.msg, hsaid, hsid⟩, ?_⟩
      cases hsound with
      | greeting hplain id =>
          rw [← hsid, PoolMessage.msg, loginResult_answerWith hplain]
          exact hplain.session
      | verdict _ _ | notice _ => cases hgreeting
  · obtain ⟨hplain, hjob⟩ := hears.jobs job hjob
    exact ⟨⟨message.msg, hsaid, hjob⟩, hplain⟩

/-- The pool says something: what was said before stays. -/
theorem Talk.say (h : Talk cc mc s tr) {toPool : List String} (late : List String)
    (answer lost : List PoolMessage)
    (hsaid : ∀ msg ∈ s.node.said, msg ∈ node.said)
    (hconversation : Conversation cc.login s.miner.client.phase toPool (s.toMiner ++ answer))
    (hlate : ∀ line ∈ late, line ∈ s.late)
    (hanswer : ∀ message ∈ answer, message.Sound cc ∧ message.msg ∈ node.said) :
    Talk cc mc
      { miner := s.miner, node, toPool, toMiner := s.toMiner ++ answer, late, lost } tr where
  run := h.run
  alive := h.alive
  conversation := hconversation
  late line hmem := h.late line (hlate line hmem)
  messages := by
    refine List.forall_mem_append.mpr ⟨fun message hmem => ?_, hanswer⟩
    obtain ⟨hsound, hmsg⟩ := h.messages message hmem
    exact ⟨hsound, hsaid _ hmsg⟩
  session sid hsid := (h.session sid hsid).mono hsaid
  jobs job hmem := (h.jobs job hmem).mono hsaid

theorem talk_step (h : Talk cc mc s tr) (hfigures : Figures cc.login.algoPerf)
    (hplain : Plainly cc s i)
    (hs : miningStep cc mc s i = some (s', os)) : Talk cc mc s' (tr ++ os) := by
  cases miningMoves_of_step hs with
  | own hi hmove => exact h.own hfigures hi hmove
  | deliver hm hmove => exact (h.deliver hfigures hm hmove).2
  | @serve members line rest hl =>
      have hconversation := h.conversation
      rw [hl] at hconversation
      have hserves := serves_of_understood s.node members
        (hconversation.understood hfigures line (by simp))
      rw [List.append_nil]
      exact h.say s.late _ s.lost (fun _ => hserves.said)
        (hconversation.serve hfigures hplain hserves) (fun _ hmem => hmem) (hserves.sound hplain)
  | @notify members hphase =>
      rw [List.append_nil]
      refine h.say s.late _ s.lost (fun _ => List.mem_append_left _)
        (h.conversation.notify hphase _) (fun _ hmem => hmem)
        (List.forall_mem_singleton.mpr ⟨.notice hplain, ?_⟩)
      simp [PoolMessage.msg]
  | @serveLate k members line hl =>
      have hserves := serves_of_understood s.node members
        (h.late line (List.mem_of_getElem? hl))
      have hsay := h.say (s.late.eraseIdx k) [] (s.lost ++ (s.node.serve members line).2)
        (fun _ => hserves.said)
        (by simpa using h.conversation) (fun _ => List.mem_of_mem_eraseIdx) (by simp)
      simpa using hsay
  | @loseLate k hk =>
      have hsay := h.say (s.late.eraseIdx k) [] s.lost (fun _ hmem => hmem)
        (by simpa using h.conversation) (fun _ => List.mem_of_mem_eraseIdx) (by simp)
      simpa using hsay

end Talk

/-! ## Where the shares are -/

/-- The share that the pool reads in a line. -/
def shareOfLine (line : String) : Option ReadShare := (readRequest line).bind (·.share)

def submissionOf (line : String) : Option Submission := (shareOfLine line).map (·.submission)

/-- The shares that the pool has decided about. -/
def PoolNode.books (node : PoolNode) : List ReadShare := node.taken ++ node.refused

/-- The invariant of the shares. -/
structure Shares (mc : MinerConfig) (s : MiningState) (tr : List PoolObs) : Prop where
  lines : ∀ line ∈ s.toPool ++ s.late, ∀ share, shareOfLine line = some share →
    Genuine mc s.node tr share
  books : ∀ share ∈ s.node.books, Genuine mc s.node tr share
  once : ∀ submission, (s.node.books.map (·.submission)).count submission +
      ((s.toPool ++ s.late).filterMap submissionOf).count submission ≤
    (submissions (clientTrace tr)).count submission
  taken : s.node.taken.length =
    (answers (clientTrace tr)).countP isAccepted + (s.toMiner ++ s.lost).countP (·.takes)
  refused : s.node.refused.length =
    (answers (clientTrace tr)).countP isRejected + (s.toMiner ++ s.lost).countP (·.refuses)

/-- What the pool has in its books after a line. -/
structure Booked (node : PoolNode) (line : String) (node' : PoolNode)
    (answer : List PoolMessage) : Prop where
  books : ∀ share ∈ node'.books, share ∈ node.books ∨ shareOfLine line = some share
  once : ∀ submission, (node'.books.map (·.submission)).count submission =
    (node.books.map (·.submission)).count submission +
      (submissionOf line).toList.count submission
  taken : node'.taken.length = node.taken.length + answer.countP (·.takes)
  refused : node'.refused.length = node.refused.length + answer.countP (·.refuses)

section Shares

variable {cc : ClientConfig} {mc : MinerConfig} {s s' : MiningState} {i : MiningInput}
  {tr os : List PoolObs} {node : PoolNode} {members : List (String × Json)} {line : String}
  {answer : List PoolMessage}

theorem Serves.booked {node' : PoolNode} (h : Serves node members line node' answer) :
    Booked node line node' answer := by
  cases h with
  | login hline =>
      have hshare : shareOfLine line = none := by rw [shareOfLine, hline]; rfl
      exact {
        books := fun share hmem => Or.inl hmem
        once := fun submission => by rw [submissionOf, hshare]; rfl
        taken := rfl
        refused := rfl }
  | @takes id share hline hok =>
      have hshare : shareOfLine line = some share := by rw [shareOfLine, hline]; rfl
      refine ⟨fun other hmem => ?_, fun submission => ?_, ?_, rfl⟩
      · simp only [PoolNode.books, List.mem_append, List.mem_singleton] at hmem ⊢
        rcases hmem with (hmem | rfl) | hmem
        · exact Or.inl (Or.inl hmem)
        · exact Or.inr hshare
        · exact Or.inl (Or.inr hmem)
      · rw [submissionOf, hshare]
        simp only [PoolNode.books, List.map_append, List.count_append, List.map_cons, List.map_nil,
          Option.map_some, Option.toList_some]
        omega
      · simp [PoolMessage.takes]
  | @refuses id share hline hok =>
      have hshare : shareOfLine line = some share := by rw [shareOfLine, hline]; rfl
      refine ⟨fun other hmem => ?_, fun submission => ?_, rfl, ?_⟩
      · simp only [PoolNode.books, List.mem_append, List.mem_singleton] at hmem ⊢
        rcases hmem with hmem | hmem | rfl
        · exact Or.inl (Or.inl hmem)
        · exact Or.inl (Or.inr hmem)
        · exact Or.inr hshare
      · rw [submissionOf, hshare]
        simp only [PoolNode.books, List.map_append, List.count_append, List.map_cons, List.map_nil,
          Option.map_some, Option.toList_some]
        omega
      · simp [PoolMessage.refuses]

theorem shares_start : Shares mc (.start cc mc) [] where
  lines := by simp [MiningState.start]
  books := by simp [MiningState.start, PoolNode.books]
  once := by simp [MiningState.start, PoolNode.books]
  taken := by simp [MiningState.start, clientTrace, answers]
  refused := by simp [MiningState.start, clientTrace, answers]

/-- The pool reads a line, wherever it is under way. -/
theorem Shares.serve (h : Shares mc s tr) (hserves : Serves s.node members line node answer)
    {toPool late : List String} {toMiner lost : List PoolMessage}
    (hlines : (line :: (toPool ++ late)).Perm (s.toPool ++ s.late))
    (hmessages : (toMiner ++ lost).Perm (s.toMiner ++ s.lost ++ answer)) :
    Shares mc { miner := s.miner, node, toPool, toMiner, late, lost } tr := by
  have hbooked := hserves.booked
  have hgenuine : ∀ share, Genuine mc s.node tr share → Genuine mc node tr share :=
    fun share hshare => hshare.mono fun _ => hserves.said
  refine ⟨fun other hmem share hshare => hgenuine share (h.lines other ?_ share hshare),
    fun share hmem => hgenuine share ?_, fun submission => ?_, ?_, ?_⟩
  · exact hlines.subset (List.mem_cons_of_mem _ hmem)
  · rcases hbooked.books share hmem with hbook | hline
    · exact h.books share hbook
    · exact h.lines line (hlines.subset List.mem_cons_self) share hline
  · have honce := h.once submission
    have hcons : (line :: (toPool ++ late)).filterMap submissionOf =
        (submissionOf line).toList ++ (toPool ++ late).filterMap submissionOf := by
      rw [List.filterMap_cons]
      cases submissionOf line <;> rfl
    rw [← (hlines.filterMap submissionOf).count_eq, hcons, List.count_append] at honce
    show (node.books.map (·.submission)).count submission +
      ((toPool ++ late).filterMap submissionOf).count submission ≤ _
    rw [hbooked.once]
    omega
  · rw [hbooked.taken, h.taken, hmessages.countP_eq]
    simp only [List.countP_append]
    omega
  · rw [hbooked.refused, h.refused, hmessages.countP_eq]
    simp only [List.countP_append]
    omega

/-- What a step needs that leaves the pool alone: it puts nothing on the way but what is
submitted, though it may lose lines, and the messages that are gone are counted. -/
theorem Shares.move (h : Shares mc s tr) {miner : PoolState} {toPool late : List String}
    {toMiner lost messages : List PoolMessage}
    (hgenuine : ∀ line ∈ os.filterMap writtenLine, ∀ share, shareOfLine line = some share →
      Genuine mc s.node tr share)
    (hwritten : (os.filterMap writtenLine).filterMap submissionOf = submissions (clientTrace os))
    (hlines : (toPool ++ late).Subperm (s.toPool ++ s.late ++ os.filterMap writtenLine))
    (hmessages : (toMiner ++ lost).Perm (messages ++ s.lost))
    (htaken : s.toMiner.countP (·.takes) =
      (answers (clientTrace os)).countP isAccepted + messages.countP (·.takes))
    (hrefused : s.toMiner.countP (·.refuses) =
      (answers (clientTrace os)).countP isRejected + messages.countP (·.refuses)) :
    Shares mc { miner, node := s.node, toPool, toMiner, late, lost } (tr ++ os) := by
  have htrace : clientTrace (tr ++ os) = clientTrace tr ++ clientTrace os :=
    List.filterMap_append
  have hanswers : answers (clientTrace (tr ++ os)) =
      answers (clientTrace tr) ++ answers (clientTrace os) := by
    rw [htrace, answers, List.filterMap_append]
    rfl
  refine ⟨fun line hmem share hshare => ?_, fun share hmem => (h.books share hmem).append os,
    fun submission => ?_, ?_, ?_⟩
  · rcases List.mem_append.mp (hlines.subset hmem) with hmem | hmem
    · exact (h.lines line hmem share hshare).append os
    · exact (hgenuine line hmem share hshare).append os
  · have honce := h.once submission
    obtain ⟨lines, hperm, hsub⟩ := hlines
    have hcount : ((toPool ++ late).filterMap submissionOf).count submission ≤
        ((s.toPool ++ s.late).filterMap submissionOf).count submission +
          (submissions (clientTrace os)).count submission := by
      rw [← hwritten, ← List.count_append, ← List.filterMap_append,
        ← (hperm.filterMap submissionOf).count_eq]
      exact (hsub.filterMap submissionOf).count_le submission
    have hsubmissions : submissions (clientTrace (tr ++ os)) =
        submissions (clientTrace tr) ++ submissions (clientTrace os) := by
      rw [htrace, submissions, List.filterMap_append]
      rfl
    rw [hsubmissions, List.count_append]
    show (s.node.books.map (·.submission)).count submission +
      ((toPool ++ late).filterMap submissionOf).count submission ≤ _
    omega
  · rw [hanswers, hmessages.countP_eq, h.taken]
    simp only [List.countP_append]
    omega
  · rw [hanswers, hmessages.countP_eq, h.refused]
    simp only [List.countP_append]
    omega

/-- A step of the miner: when the connection ends, nothing is on the way any more. -/
theorem Shares.follow (h : Shares mc s tr) {miner : PoolState} (messages : List PoolMessage)
    (hgenuine : ∀ line ∈ os.filterMap writtenLine, ∀ share, shareOfLine line = some share →
      Genuine mc s.node tr share)
    (hwritten : (os.filterMap writtenLine).filterMap submissionOf = submissions (clientTrace os))
    (htaken : s.toMiner.countP (·.takes) =
      (answers (clientTrace os)).countP isAccepted + messages.countP (·.takes))
    (hrefused : s.toMiner.countP (·.refuses) =
      (answers (clientTrace os)).countP isRejected + messages.countP (·.refuses)) :
    Shares mc ({ s with toMiner := messages }.follow miner os) (tr ++ os) := by
  rw [MiningState.follow]
  split
  · refine h.move hgenuine hwritten (List.Perm.subperm ?_) (List.Perm.refl _) htaken hrefused
    rw [List.append_assoc, List.append_assoc]
    exact List.Perm.append_left _ List.perm_append_comm
  · refine h.move hgenuine hwritten ?_ ?_ htaken hrefused
    · show (s.late ++ s.toPool).Subperm (s.toPool ++ s.late ++ os.filterMap writtenLine)
      exact List.perm_append_comm.subperm.trans (List.sublist_append_left _ _).subperm
    · show (s.lost ++ messages).Perm (messages ++ s.lost)
      exact List.perm_append_comm

/-- A line that is written is a login, or a submission of a worker's share. -/
theorem Talk.written (h : Talk cc mc s tr) (hfigures : Figures cc.login.algoPerf) {j : PoolInput}
    {miner : PoolState} (hs : poolStep cc mc s.miner j = some (miner, os)) {o : PoolObs}
    (ho : o ∈ os) (hline : writtenLine o = some line) :
    (shareOfLine line = none ∧ o.clientOf.bind submittedBy = none) ∨
      ∃ share, shareOfLine line = some share ∧ Genuine mc s.node tr share ∧
        o.clientOf.bind submittedBy = some share.submission := by
  cases o with
  | miner o => cases hline
  | client o =>
      cases o with
      | login id msg =>
          cases hline
          refine Or.inl ⟨?_, rfl⟩
          have hmem : .login id msg ∈ clientTrace os := List.mem_filterMap.mpr ⟨_, ho, rfl⟩
          rcases clientStep_of_poolStep hs with ⟨-, -, hos⟩ | ⟨i, -, hc⟩
          · rw [hos] at hmem
            cases hmem
          · obtain ⟨p, rfl⟩ := spells_of_step hc _ hmem
            have hlogin : readRequest (toText (buildLogin cc.login id p) ++ "\n") = _ :=
              readRequest_login hfigures id p
            rw [shareOfLine, hlogin]
            rfl
      | submit sid id submission line =>
          cases hline
          obtain ⟨hread, hgenuine⟩ := h.genuine hs ho
          refine Or.inr ⟨{ sessionId := sid, submission }, ?_, hgenuine, rfl⟩
          rw [shareOfLine, hread]
          rfl
      | _ => cases hline

theorem Talk.submissions (h : Talk cc mc s tr) (hfigures : Figures cc.login.algoPerf)
    {j : PoolInput} {miner : PoolState} (hs : poolStep cc mc s.miner j = some (miner, os)) :
    (os.filterMap writtenLine).filterMap submissionOf = submissions (clientTrace os) := by
  rw [List.filterMap_filterMap, Pool.submissions, clientTrace, List.filterMap_filterMap]
  refine List.filterMap_congr fun o ho => ?_
  cases hline : writtenLine o with
  | none =>
      cases o with
      | miner o => rfl
      | client o => cases o <;> first | rfl | cases hline
  | some line =>
      rw [Option.bind_some, submissionOf]
      rcases h.written hfigures hs ho hline with ⟨hshare, hsubmit⟩ | ⟨share, hshare, -, hsubmit⟩
      · rw [hshare, hsubmit]
        rfl
      · rw [hshare, hsubmit]
        rfl

/-- A step of the miner, given what it takes from the pool. -/
theorem Shares.step (h : Shares mc s tr) (htalk : Talk cc mc s tr)
    (hfigures : Figures cc.login.algoPerf) {j : PoolInput} {miner : PoolState}
    (messages : List PoolMessage) (hs : poolStep cc mc s.miner j = some (miner, os))
    (htaken : s.toMiner.countP (·.takes) =
      (answers (clientTrace os)).countP isAccepted + messages.countP (·.takes))
    (hrefused : s.toMiner.countP (·.refuses) =
      (answers (clientTrace os)).countP isRejected + messages.countP (·.refuses)) :
    Shares mc ({ s with toMiner := messages }.follow miner os) (tr ++ os) := by
  refine h.follow messages (fun line hmem share hshare => ?_) (htalk.submissions hfigures hs)
    htaken hrefused
  obtain ⟨o, ho, hline⟩ := List.mem_filterMap.mp hmem
  rcases htalk.written hfigures hs ho hline with ⟨hnone, -⟩ | ⟨other, hother, hgenuine, -⟩
  · rw [hnone] at hshare
    cases hshare
  · rw [hother] at hshare
    cases hshare
    exact hgenuine

theorem shares_step (h : Shares mc s tr) (htalk : Talk cc mc s tr)
    (hfigures : Figures cc.login.algoPerf)
    (hs : miningStep cc mc s i = some (s', os)) : Shares mc s' (tr ++ os) := by
  cases miningMoves_of_step hs with
  | own hi hmove =>
      have hanswers : answers (clientTrace os) = [] := by
        rcases clientStep_of_own hi hmove with ⟨-, hos⟩ | ⟨i, hi, hc⟩
        · rw [hos]
          rfl
        · exact (quiet_of_step hi hc).1
      refine h.step htalk hfigures s.toMiner hmove ?_ ?_
      · rw [hanswers, List.countP_nil, Nat.zero_add]
      · rw [hanswers, List.countP_nil, Nat.zero_add]
  | @deliver message rest miner _ hm hmove =>
      have hears := (htalk.deliver hfigures hm hmove).1
      refine h.step htalk hfigures rest hmove ?_ ?_
      · rw [hm, answers, hears.accepted, ← List.countP_append]
        rfl
      · rw [hm, answers, hears.rejected, ← List.countP_append]
        rfl
  | @serve members line rest hl =>
      have hserves := serves_of_understood s.node members
        (htalk.conversation.understood hfigures line (by simp [hl]))
      rw [List.append_nil]
      refine h.serve hserves (by rw [hl]; rfl) ?_
      simp only [List.append_assoc]
      exact List.Perm.append_left _ List.perm_append_comm
  | @notify members _ =>
      rw [List.append_nil]
      have hgenuine : ∀ share, Genuine mc s.node tr share →
          Genuine mc { s.node with said := s.node.said ++ [.object members] } tr share :=
        fun share hshare => hshare.mono fun _ => List.mem_append_left _
      refine ⟨fun line hmem share hshare => hgenuine share (h.lines line hmem share hshare),
        fun share hmem => hgenuine share (h.books share hmem), h.once, ?_, ?_⟩
      · rw [h.taken]
        simp [List.countP_append, PoolMessage.takes]
      · rw [h.refused]
        simp [List.countP_append, PoolMessage.refuses]
  | @serveLate k members line hl =>
      have hserves := serves_of_understood s.node members
        (htalk.late line (List.mem_of_getElem? hl))
      rw [List.append_nil]
      refine h.serve hserves ?_ ?_
      · obtain ⟨hk, rfl⟩ := List.getElem?_eq_some_iff.mp hl
        exact List.perm_middle.symm.trans
          (List.Perm.append_left _ (List.getElem_cons_eraseIdx_perm hk))
      · rw [List.append_assoc]
  | @loseLate k hk =>
      have hsub : (s.toPool ++ s.late.eraseIdx k).Sublist (s.toPool ++ s.late) :=
        (List.Sublist.refl _).append (List.eraseIdx_sublist ..)
      refine h.move (by simp) rfl ?_ (List.Perm.refl _) ?_ ?_
      · simpa using hsub.subperm
      · exact (Nat.zero_add _).symm
      · exact (Nat.zero_add _).symm

end Shares

/-! ## The first connection -/

/-- As long as the client has connected once at most, nothing is late or lost. -/
structure Unbroken (s : MiningState) (tr : List PoolObs) : Prop where
  before : (clientTrace tr).countP ClientObs.isOpened = 0 →
    s.miner.client.phase.connected = false ∧ s.late = [] ∧ s.lost = []
  first : (clientTrace tr).countP ClientObs.isOpened = 1 →
    s.miner.client.phase.connected = true → s.late = [] ∧ s.lost = []

section Unbroken

variable {cc : ClientConfig} {mc : MinerConfig} {s s' : MiningState} {i : MiningInput}
  {tr os : List PoolObs}

theorem connected_of_not_opened {c c' : Client} {j : ClientInput} {cos : List ClientObs}
    (hquiet : ∀ o ∈ cos, o.isOpened = false) (hc : clientStep cc c j = some (c', cos))
    (hphase : c'.phase.connected = true) : c.phase.connected = true := by
  by_cases hj : ∃ outcome, j = .connect outcome
  · obtain ⟨outcome, rfl⟩ := hj
    cases clientMoves_of_step hc with
    | opened _ _ => cases hquiet _ List.mem_cons_self
    | @failed p e _ _ _ =>
        rw [(fail_not_connected c p e).1] at hphase
        cases hphase
  · exact connected_step (fun outcome h => hj ⟨outcome, h⟩) hc (Or.inl hphase)

theorem opened_of_poolStep {j : PoolInput} {pool pool' : PoolState}
    (hs : poolStep cc mc pool j = some (pool', os)) :
    ((clientTrace os).countP ClientObs.isOpened = 0 ∧
        (pool'.client.phase.connected = true → pool.client.phase.connected = true)) ∨
      (clientTrace os).countP ClientObs.isOpened = 1 := by
  rcases clientStep_of_poolStep hs with ⟨-, hclient, hos⟩ | ⟨i, -, hc⟩
  · rw [hos, hclient]
    exact Or.inl ⟨rfl, id⟩
  · rcases opened_of_step hc with hquiet | ⟨p, id, msg, hos, -, -⟩
    · refine Or.inl ⟨List.countP_eq_zero.mpr fun o ho => ?_, connected_of_not_opened hquiet hc⟩
      rw [hquiet o ho]
      exact Bool.false_ne_true
    · rw [hos]
      exact Or.inr rfl

theorem Unbroken.follow (h : Unbroken s tr) (htalk : Talk cc mc s tr) {j : PoolInput}
    {miner : PoolState} {messages : List PoolMessage}
    (hs : poolStep cc mc s.miner j = some (miner, os))
    (hmessages : s.toMiner = [] → messages = []) :
    Unbroken ({ s with toMiner := messages }.follow miner os) (tr ++ os) := by
  have hcount : (clientTrace (tr ++ os)).countP ClientObs.isOpened =
      (clientTrace tr).countP ClientObs.isOpened + (clientTrace os).countP ClientObs.isOpened := by
    rw [clientTrace, List.filterMap_append, List.countP_append]
    rfl
  have hopened := opened_of_poolStep hs
  rw [MiningState.follow]
  split
  · next hphase =>
      refine ⟨fun hzero => ?_, fun hone _ => ?_⟩
      · obtain ⟨hbefore, -, -⟩ := h.before (by omega)
        rcases hopened with ⟨-, hconnected⟩ | hos
        · rw [hconnected hphase] at hbefore
          cases hbefore
        · omega
      · rcases hopened with ⟨hos, hconnected⟩ | hos
        · exact h.first (by omega) (hconnected hphase)
        · exact (h.before (by omega)).2
  · next hphase =>
      refine ⟨fun hzero => ?_, fun _ hconnected => absurd hconnected hphase⟩
      obtain ⟨hbefore, hlate, hlost⟩ := h.before (by omega)
      obtain ⟨htoPool, htoMiner⟩ := htalk.conversation.of_silent hbefore
      refine ⟨by simpa using hphase, ?_, ?_⟩
      · simp [hlate, htoPool]
      · simp [hlost, hmessages htoMiner]

/-- A late line is one of an earlier connection. -/
theorem Unbroken.not_late (h : Unbroken s tr) {late : List String} {lost : List PoolMessage}
    {node : PoolNode} (hlate : s.late ≠ []) :
    Unbroken { s with node, late, lost } tr where
  before hzero := absurd (h.before hzero).2.1 hlate
  first hone hphase := absurd (h.first hone hphase).1 hlate

theorem unbroken_step (h : Unbroken s tr) (htalk : Talk cc mc s tr)
    (hs : miningStep cc mc s i = some (s', os)) : Unbroken s' (tr ++ os) := by
  cases miningMoves_of_step hs with
  | own hi hmove => exact h.follow htalk hmove id
  | deliver hm hmove =>
      refine h.follow htalk hmove fun hempty => ?_
      rw [hm] at hempty
      cases hempty
  | serve _ | notify _ =>
      rw [List.append_nil]
      exact ⟨h.before, h.first⟩
  | serveLate hl =>
      rw [List.append_nil]
      exact h.not_late (List.ne_nil_of_mem (List.mem_of_getElem? hl))
  | loseLate hk =>
      rw [List.append_nil]
      exact h.not_late (List.ne_nil_of_length_pos (by omega))

end Unbroken

/-! ## The accounts -/

/-- The pool's books against the miner's counters. -/
structure PoolAccounts (mc : MinerConfig) (s : MiningState) (tr : List PoolObs) : Prop where
  alive : s.miner.client.phase.crashed = false
  taken : s.node.taken.length = s.miner.controller.accepted +
    (s.miner.events ++ s.miner.client.outbox).countP isAccepted +
      (s.toMiner ++ s.lost).countP (·.takes)
  refused : s.node.refused.length = s.miner.controller.rejected +
    (s.miner.events ++ s.miner.client.outbox).countP isRejected +
      (s.toMiner ++ s.lost).countP (·.refuses)
  once : (s.node.books.map (·.submission)).Subperm ((poppedShares tr).map Submission.ofShare)
  genuine : ∀ share ∈ s.node.books, Genuine mc s.node tr share
  unbroken : (clientTrace tr).countP ClientObs.isOpened ≤ 1 →
    s.miner.client.phase.connected = true → s.late = [] ∧ s.lost = []

section Accounts

variable {cc : ClientConfig} {mc : MinerConfig} {s : MiningState} {tr : List PoolObs}

theorem invariants_of_run (hfigures : Figures cc.login.algoPerf) {is : List MiningInput}
    (h : Run (miningStep cc mc) (Plainly cc) (.start cc mc) is s tr) :
    Talk cc mc s tr ∧ Shares mc s tr ∧ Unbroken s tr := by
  induction h with
  | nil =>
      refine ⟨talk_start, shares_start, fun _ => ⟨rfl, rfl, rfl⟩, fun hone => ?_⟩
      cases hone
  | snoc _ hplain hs ih =>
      obtain ⟨htalk, hshares, hunbroken⟩ := ih
      exact ⟨talk_step htalk hfigures hplain hs,
        shares_step hshares htalk hfigures hs, unbroken_step hunbroken htalk hs⟩

/-- Only events of accepted and rejected shares count. -/
theorem countP_isShare {p : StratumEvent → Bool}
    (hp : ∀ event, p event = true → event.isShare = true) (events : List StratumEvent) :
    (events.filter StratumEvent.isShare).countP p = events.countP p := by
  rw [List.countP_filter]
  refine List.countP_congr fun event _ => ?_
  rw [Bool.and_eq_true]
  exact ⟨fun h => h.1, fun h => ⟨h, hp event h⟩⟩

/-- The verdicts that the client has read are counted, or wait as events. -/
theorem heard_of_run {js : List PoolInput} {pool : PoolState}
    (h : Run (poolStep cc mc) (fun _ _ => True) (.start cc mc) js pool tr) :
    (answers (clientTrace tr)).countP isAccepted =
        pool.controller.accepted + (pool.events ++ pool.client.outbox).countP isAccepted ∧
      (answers (clientTrace tr)).countP isRejected =
        pool.controller.rejected + (pool.events ++ pool.client.outbox).countP isRejected := by
  obtain ⟨js, hclient⟩ := clientRun_of_poolRun h
  have hreplies : shareEvents (clientTrace tr) ++ pool.client.outbox.filter StratumEvent.isShare =
      answers (clientTrace tr) := (replies_of_run hclient).2
  have hcounters : CountersSound pool tr :=
    Run.invariant ⟨rfl, rfl⟩ (fun hsound _ hs => countersSound_step hsound hs) h
  have hsplit : ∀ p, (∀ event, p event = true → event.isShare = true) →
      (answers (clientTrace tr)).countP p =
        (shareEvents (clientTrace tr)).countP p + pool.client.outbox.countP p := by
    intro p hp
    rw [← hreplies, List.countP_append, countP_isShare hp]
  have haccepted : ∀ event, isAccepted event = true → event.isShare = true := by
    intro event hevent
    cases event <;> first | rfl | cases hevent
  have hrejected : ∀ event, isRejected event = true → event.isShare = true := by
    intro event hevent
    cases event <;> first | rfl | cases hevent
  constructor
  · rw [hsplit isAccepted haccepted, ← hcounters.accepted, List.countP_append]
    omega
  · rw [hsplit isRejected hrejected, ← hcounters.rejected, List.countP_append]
    omega

end Accounts

theorem parse_readingConfig {v : Json} (h : WellFormed v) :
    readingConfig.parse (toText v) = .ok (ordered v) := by
  simp only [readingConfig, read_toText h]

/-- The login is accepted, with a job. -/
def greetingMembers : List (String × Json) :=
  [("result", .object
    [("id", .string "s"), ("job", .object
      [("job_id", .string "j"), ("blob", .string zeroBlobJob.blob),
        ("target", .string "ffffffff")])])]

def acceptingMembers : List (String × Json) :=
  [("error", .null), ("result", .object [("status", .string "OK")])]

def plainLogin (members : List (String × Json)) : Bool :=
  let login := loginResult (ordered (.object members))
  decide (Plain login.1.toList) &&
    match login.2 with
    | .newJob job => decide (Plain job.jobId.toList)
    | _ => true

theorem plainAnswer_of_plainLogin {members : List (String × Json)}
    (hwf : WellFormed (.object members)) (hid : "id" ∉ members.map Prod.fst)
    (hmethod : "method" ∉ members.map Prod.fst) (h : plainLogin members = true) :
    PlainAnswer readingConfig members := by
  simp only [plainLogin, Bool.and_eq_true, decide_eq_true_eq] at h
  refine ⟨hwf, fun id => parse_readingConfig (wellFormed_answerWith hwf hid id), hid, hmethod, h.1,
    fun job hjob => ?_⟩
  have hplain := h.2
  rw [loginResult_eq_newJob_iff.mpr hjob] at hplain
  exact of_decide_eq_true hplain

theorem plain_greetingMembers : PlainAnswer readingConfig greetingMembers := by
  have hjob : WellFormed (.object [("job_id", .string "j"), ("blob", .string zeroBlobJob.blob),
      ("target", .string "ffffffff")]) := by
    refine .object (by decide) ?_
    simp only [List.forall_mem_cons]
    exact ⟨.string _, .string _, .string _, by simp⟩
  refine plainAnswer_of_plainLogin ?_ (by decide) (by decide) (by decide +kernel)
  refine .object (by decide) (List.forall_mem_singleton.mpr (.object (by decide) ?_))
  simp only [List.forall_mem_cons]
  exact ⟨.string _, hjob, by simp⟩

theorem plain_acceptingMembers : PlainAnswer readingConfig acceptingMembers := by
  refine plainAnswer_of_plainLogin (.object (by decide) ?_) (by decide) (by decide)
    (by decide +kernel)
  simp only [acceptingMembers, List.forall_mem_cons]
  exact ⟨.null, .object (by decide) (List.forall_mem_singleton.mpr (.string _)), by simp⟩

/-- After the login: a batch, and its first share. -/
def firstShareInputs : List PoolInput :=
  [.sendEvent, .sendEvent, .recvEvent, .recvEvent] ++ firstBatchInputs ++
    [.miner (.offer 0), .recvShare, .submitSent, .recvSubmit, .client (.submitWritten (.ok ()))]

def settledInputs : List MiningInput :=
  [.miner (.client .check), .miner (.client (.connect (.ok ()))),
    .miner (.client (.loginWritten (.ok ()))), .serve greetingMembers, .deliver] ++
    firstShareInputs.map .miner ++
    [.serve acceptingMembers, .deliver, .miner .sendEvent, .miner .recvEvent]

theorem plainly_of_mem {t : MiningState} {i : MiningInput} (hi : i ∈ settledInputs) :
    Plainly readingConfig t i := by
  simp only [settledInputs, List.mem_append, List.mem_map, List.mem_cons, List.not_mem_nil,
    or_false] at hi
  rcases hi with ((rfl | rfl | rfl | rfl | rfl) | ⟨j, -, rfl⟩) | rfl | rfl | rfl | rfl
  all_goals first | exact plain_greetingMembers | exact plain_acceptingMembers | trivial

end LiteXmr.Pool
