/-
LiteXmr.Controller.SoloMiningTheorems — every block the daemon takes is one of its
own templates, and is counted once.

The two ends understand each other: the daemon reads the requests the miner posts
(`serve_blockTemplate`, `serve_block`), and the miner reads back the template that
was handed out, whatever else is in the reply (`templateReply_template`), and the
verdict on a block. What the polling task and the submit loop do is
`daemonStep`, so what is known of its runs holds here (`daemonRun_of_run`).

`Solo` is the invariant. A template in use is one the daemon has handed out, so a
posted block is such a template with a nonce in it; and a block that was taken is
counted, or its answer is under way, or was lost (`blocks_counted_once`).
-/
import LiteXmr.Controller.DaemonReportTheorems
import LiteXmr.Controller.SoloMining
import LiteXmr.Stratum.LoginLineTheorems

namespace LiteXmr.Daemon

open JsonStruct Lts
open Stratum (field? lookup_append lookup_field?)

/-! ## Replies -/

/-- The names of the fields of a template. -/
def templateNames : List String :=
  ["blocktemplate_blob", "blockhashing_blob", "difficulty", "height", "seed_hash",
    "next_seed_hash"]

/-- The other members of a result are members that JSON can spell, and none of the fields. -/
structure Choice.Plain (choice : Choice) : Prop where
  wellFormed : JsonText.WellFormed (.object choice.extra)
  other : ∀ f ∈ choice.extra, f.1 ∉ templateNames

section Replies

variable {α : Type}

/-- A reply with a result, as the miner reads it. -/
theorem jsonRpc_resultText (de : De α) (method : String) {result : Json}
    (h : JsonText.WellFormed result) (hnull : JsonText.ordered result ≠ .null) {value : α}
    (hvalue : de (JsonText.ordered result) = some value) :
    jsonRpc JsonText.read de method (.body (resultText result)) = .ok value := by
  have hwf : JsonText.WellFormed (.object
      [("id", .string "0"), ("jsonrpc", .string "2.0"), ("result", result)]) := by
    refine .object (by simp) ?_
    simp only [List.forall_mem_cons]
    exact ⟨.string _, .string _, h, by simp⟩
  have hread : JsonText.read (resultText result) = some (JsonText.ordered (.object
      [("id", .string "0"), ("jsonrpc", .string "2.0"), ("result", result)])) :=
    JsonText.read_toText hwf
  have henvelope : RpcEnvelope.read de (JsonText.ordered (.object
      [("id", .string "0"), ("jsonrpc", .string "2.0"), ("result", result)])) =
        some { result := some value, error := none } := by
    rw [RpcEnvelope.read, structFields_ordered (by simp)]
    simp [Json.lookup, optionalField, nullable_of_ne_null hnull, hvalue]
  simp only [jsonRpc, hread, Option.bind_some, henvelope, okOrElse]

theorem keys_template (result : BlockTemplateResult) :
    ((templateFields result).map Prod.fst).Sublist templateNames := by
  have hseeds := (Stratum.keys_field? "seed_hash" (result.seedHash.map .string)).append
    (Stratum.keys_field? "next_seed_hash" (result.nextSeedHash.map .string))
  simp only [templateFields, List.map_append, List.append_assoc]
  exact (List.Sublist.refl _).append hseeds

theorem nodup_template {choice : Choice} (h : choice.Plain) :
    ((templateFields choice.result ++ choice.extra).map Prod.fst).Nodup := by
  have hkeys := keys_template choice.result
  obtain ⟨hextra, -⟩ : (choice.extra.map Prod.fst).Nodup ∧ True := by
    cases h.wellFormed with
    | object hnodup _ => exact ⟨hnodup, trivial⟩
  rw [List.map_append]
  refine List.nodup_append.mpr ⟨hkeys.nodup (by decide), hextra, fun name hname other hother => ?_⟩
  rintro rfl
  obtain ⟨f, hf, rfl⟩ := List.mem_map.mp hother
  exact h.other f hf (hkeys.subset hname)

theorem wellFormed_template {choice : Choice} (h : choice.Plain) :
    JsonText.WellFormed (.object (templateFields choice.result ++ choice.extra)) := by
  have hseed : ∀ seed : Option String, ∀ v ∈ seed.map Json.string, JsonText.WellFormed v := by
    intro seed v hv
    obtain ⟨s, -, rfl⟩ := Option.map_eq_some_iff.mp hv
    exact .string s
  refine .object (nodup_template h) (List.forall_mem_append.mpr ⟨?_, ?_⟩)
  · simp only [templateFields, List.forall_mem_append, List.forall_mem_cons]
    exact ⟨⟨⟨.string _, .string _, .posInt _, .posInt _, by simp⟩,
      Stratum.wellFormed_field? (hseed _)⟩, Stratum.wellFormed_field? (hseed _)⟩
  · cases h.wellFormed with
    | object _ hvalues => exact hvalues

theorem read_template {choice : Choice} (h : choice.Plain) :
    BlockTemplateResult.read
      (JsonText.ordered (.object (templateFields choice.result ++ choice.extra))) =
        some choice.result := by
  have hlookup : ∀ name ∈ templateNames,
      (Json.lookup name (templateFields choice.result ++ choice.extra)).map JsonText.ordered =
        (Json.lookup name (templateFields choice.result)).map JsonText.ordered := by
    intro name hname
    have hother : Json.lookup name choice.extra = none := by
      refine JsonText.lookup_eq_none fun hmem => ?_
      obtain ⟨f, hf, rfl⟩ := List.mem_map.mp hmem
      exact h.other f hf hname
    rw [lookup_append, hother, Option.or_none]
  have hfields : structFields templateNames
      (JsonText.ordered (.object (templateFields choice.result ++ choice.extra))) =
        some (templateNames.map fun name =>
          (Json.lookup name (templateFields choice.result)).map JsonText.ordered) := by
    rw [structFields_ordered (nodup_template h), List.map_congr_left hlookup]
  obtain ⟨⟨template, hashing, difficulty, height, seedHash, nextSeedHash⟩, extra, takes⟩ := choice
  rw [BlockTemplateResult.read]
  simp only [templateNames] at hfields
  rw [hfields]
  cases seedHash with
  | none => cases nextSeedHash <;> rfl
  | some seed => cases nextSeedHash <;> rfl

/-- The miner reads the template that was handed out. -/
theorem templateReply_template {choice : Choice} (h : choice.Plain) :
    templateReply JsonText.read
      (.body (resultText (.object (templateFields choice.result ++ choice.extra)))) =
        .ok choice.result :=
  jsonRpc_resultText _ _ (wellFormed_template h) (by simp [JsonText.ordered]) (read_template h)

/-- `get_block_template` reads the reply and makes the job of it, as the miner's step does. -/
theorem toOption_jobReply {β : Type} (parse : β → Option Json) (reply : HttpReply β) :
    (jobReply parse reply).toOption =
      (templateReply parse reply).toOption.bind getBlockTemplate := by
  unfold jobReply
  cases templateReply parse reply with
  | error e => rfl
  | ok result =>
      show (okOrElse (getBlockTemplate result) _).toOption = getBlockTemplate result
      cases getBlockTemplate result <;> rfl

theorem submitReply_ok :
    submitReply JsonText.read (.body (resultText (.object [("status", .string "OK")]))) =
      .ok () := by
  have hwf : JsonText.WellFormed (.object [("status", .string "OK")]) :=
    .object (by simp) (List.forall_mem_singleton.mpr (.string _))
  have hread : SubmitBlockResult.read (JsonText.ordered (.object [("status", .string "OK")])) =
      some { status := some "OK" } := by rfl
  have hreply := jsonRpc_resultText SubmitBlockResult.read "submit_block" hwf
    (by simp [JsonText.ordered]) hread
  simp only [submitReply, hreply]
  rfl

theorem submitReply_error (message : String) :
    (submitReply JsonText.read (.body (errorText message))).isOk = false := by
  have hwf : JsonText.WellFormed (.object [("error", .object [("message", .string message)]),
      ("id", .string "0"), ("jsonrpc", .string "2.0")]) := by
    refine .object (by simp) ?_
    simp only [List.forall_mem_cons]
    exact ⟨.object (by simp) (List.forall_mem_singleton.mpr (.string _)), .string _, .string _,
      by simp⟩
  have hread : JsonText.read (errorText message) = some (JsonText.ordered (.object
      [("error", .object [("message", .string message)]), ("id", .string "0"),
        ("jsonrpc", .string "2.0")])) := JsonText.read_toText hwf
  have henvelope : RpcEnvelope.read SubmitBlockResult.read (JsonText.ordered (.object
      [("error", .object [("message", .string message)]), ("id", .string "0"),
        ("jsonrpc", .string "2.0")])) = some
          { result := none, error := some (.object [("message", .string message)]) } := by
    rw [RpcEnvelope.read, structFields_ordered (by simp)]
    rfl
  simp only [submitReply, jsonRpc, hread, Option.bind_some, henvelope]
  rfl

end Replies

/-! ## Requests -/

theorem serve_blockTemplate (node : Node) (choice : Choice) (client : DaemonRpcClient) :
    node.serve choice client.blockTemplateBody =
      ({ node with templates := node.templates ++ [choice.result] },
        resultText (.object (templateFields choice.result ++ choice.extra))) := by
  obtain ⟨msg, params, hread, hmethod, -, -, -⟩ := read_blockTemplateBody client
  simp only [Node.serve, hread, Option.bind_some, hmethod]

theorem serve_block (node : Node) (choice : Choice) {block : Bytes} {body : String}
    (h : AsksFor block body) :
    node.serve choice body =
      if choice.takes then
        ({ node with blocks := node.blocks ++ [block] },
          resultText (.object [("status", .string "OK")]))
      else (node, errorText "Block not accepted") := by
  obtain ⟨msg, text, hread, hmethod, hparams, hblock⟩ := h
  simp only [Node.serve, hread, Option.bind_some, hmethod, hparams, blockOf, hblock]

/-! ## What a step can be -/

inductive SoloMoves (mc : MinerConfig) (client : DaemonRpcClient) (s : SoloState) :
    SoloInput → SoloState → List DaemonObs → Prop where
  | own {i : DaemonInput} {daemon : DaemonState} {os : List DaemonObs} (hi : isReply i = false)
      (hd : daemonStep mc s.daemon i = some (daemon, os)) (hnone : os.filterMap requestOf = []) :
      SoloMoves mc client s (.miner i) { s with daemon } os
  | post {i : DaemonInput} {daemon : DaemonState} {os : List DaemonObs} {body : String}
      {rest : List String} (hi : isReply i = false)
      (hd : daemonStep mc s.daemon i = some (daemon, os))
      (hbody : os.filterMap requestOf = body :: rest) :
      SoloMoves mc client s (.miner i) { s with daemon, submit := .posted body } os
  | ask (hidle : s.poll = .idle) :
      SoloMoves mc client s .ask { s with poll := .posted client.blockTemplateBody } []
  | serve {caller : RpcCaller} {choice : Choice} {body : String}
      (hbody : s.call caller = .posted body) :
      SoloMoves mc client s (.serve caller choice)
        ({ s with node := (s.node.serve choice body).1 }.setCall caller
          (.answered (s.node.serve choice body).2)) []
  | deliver {caller : RpcCaller} {text : String} {daemon : DaemonState} {os : List DaemonObs}
      (htext : s.call caller = .answered text)
      (hd : daemonStep mc s.daemon (replyInput (.body text) caller) = some (daemon, os)) :
      SoloMoves mc client s (.deliver caller) ({ s with daemon }.setCall caller .idle) os
  | losePoll {daemon : DaemonState} {os : List DaemonObs}
      (hd : daemonStep mc s.daemon (.response none) = some (daemon, os)) :
      SoloMoves mc client s (.lose .poller) { s with daemon, poll := .idle } os
  | loseSubmit {daemon : DaemonState} {os : List DaemonObs}
      (hd : daemonStep mc s.daemon (.submitted false) = some (daemon, os)) :
      SoloMoves mc client s (.lose .submitter)
        { s with daemon, submit := .idle, unheard := s.unheard + s.submit.told } os

theorem soloMoves_of_step {mc : MinerConfig} {client : DaemonRpcClient} {s s' : SoloState}
    {i : SoloInput} {os : List DaemonObs} (h : soloStep mc client s i = some (s', os)) :
    SoloMoves mc client s i s' os := by
  cases i with
  | miner i =>
      simp only [soloStep] at h
      split at h
      · cases h
      · next hi =>
          split at h
          · next daemon dos hd =>
              split at h
              · next hnone =>
                  cases h
                  exact .own (by simpa using hi) hd hnone
              · next body rest hbody =>
                  cases h
                  exact .post (by simpa using hi) hd hbody
          · cases h
  | ask =>
      simp only [soloStep] at h
      split at h
      · cases h
      · split at h
        · next hidle =>
            cases h
            exact .ask hidle
        · cases h
  | serve caller choice =>
      simp only [soloStep] at h
      split at h
      · next body hbody =>
          cases h
          exact .serve hbody
      · cases h
  | deliver caller =>
      simp only [soloStep] at h
      split at h
      · next text htext =>
          simp only [SoloState.finish] at h
          split at h
          · next daemon dos hd =>
              cases h
              exact .deliver htext hd
          · cases h
      · cases h
  | lose caller =>
      simp only [soloStep] at h
      split at h
      · cases h
      · simp only [SoloState.finish] at h
        split at h
        · next daemon dos hd =>
            cases h
            cases caller with
            | poller => exact .losePoll hd
            | submitter => exact .loseSubmit hd
        · cases h

/-! ## Steps of the miner -/

/-- A step of the miner posts a block, or the calls are as they were. -/
inductive OwnStep (d d' : DaemonState) (os : List DaemonObs) : Prop where
  | quiet (hrequests : os.filterMap requestOf = [])
      (hresponses : ∀ result, .response result ∉ os) (haccepted : d'.accepted = d.accepted)
      (hcalls : d'.submitter.calls = d.submitter.calls)
  | posts {found : Found} {template blockBlob : String}
      (hos : os = [.submitBlock found blockBlob]) (haccepted : d'.accepted = d.accepted)
      (hp : d.submitter = .looking found) (hp' : d'.submitter = .submitting found)
      (ht : d.templates found.share.jobId = some template)
      (hb : blockTemplateWithNonce template found.share.nonce = some blockBlob)

section

variable {mc : MinerConfig} {d d' : DaemonState} {i : DaemonInput} {os : List DaemonObs}

theorem requests_miner (mos : List MinerObs) :
    (mos.map DaemonObs.miner).filterMap requestOf = [] := by
  simp [requestOf]

theorem responses_miner (mos : List MinerObs) (result : BlockTemplateResult) :
    .response result ∉ mos.map DaemonObs.miner := by
  simp

theorem ownStep_of_step (hi : isReply i = false) (hs : daemonStep mc d i = some (d', os)) :
    OwnStep d d' os := by
  cases daemonMoves_of_step hs with
  | failed | refused _ _ | received _ _ | submitted _ => cases hi
  | insert _ _ | noTemplate _ _ | sameJob _ _ => exact .quiet rfl (by simp) rfl rfl
  | publish _ _ _ => exact .quiet (requests_miner _) (responses_miner _) rfl rfl
  | miner _ _ _ => exact .quiet (requests_miner _) (responses_miner _) rfl rfl
  | recvShare hp _ =>
      exact .quiet rfl (by simp) rfl (by rw [hp]; rfl)
  | rejected hp => exact .quiet rfl (by simp) rfl (by rw [hp]; rfl)
  | submit hp ht hb => exact .posts rfl rfl hp rfl ht hb
  | shutdown hp => exact .quiet rfl (by simp) rfl (by rw [hp]; rfl)

theorem response_of_step {result : Option BlockTemplateResult}
    (hs : daemonStep mc d (.response result) = some (d', os)) :
    d'.submitter = d.submitter ∧ d'.accepted = d.accepted ∧
      ∀ other, .response other ∈ os → result = some other := by
  cases daemonMoves_of_step hs with
  | failed => exact ⟨rfl, rfl, by simp⟩
  | refused _ _ => exact ⟨rfl, rfl, fun other hmem => by simpa [eq_comm] using hmem⟩
  | received _ _ => exact ⟨rfl, rfl, fun other hmem => by simpa [eq_comm] using hmem⟩

end

/-! ## The invariant -/

/-- The block is one of the templates with a nonce in it. -/
def BlockFrom (templates : List BlockTemplateResult) (block : Bytes) : Prop :=
  ∃ result ∈ templates, ∃ template nonce,
    Base16.decode result.blocktemplateBlob = some template ∧ 43 ≤ template.length ∧
      block = stamp template nonce

theorem BlockFrom.append {templates : List BlockTemplateResult} {block : Bytes}
    (h : BlockFrom templates block) (more : List BlockTemplateResult) :
    BlockFrom (templates ++ more) block := by
  obtain ⟨result, hmem, hrest⟩ := h
  exact ⟨result, List.mem_append_left _ hmem, hrest⟩

structure Solo (client : DaemonRpcClient) (s : SoloState) (tr : List DaemonObs) : Prop where
  answerable : Answerable s.daemon tr
  handed : ∀ result, .response result ∈ tr → result ∈ s.node.templates
  asked : ∀ body, s.poll = .posted body → body = client.blockTemplateBody
  told : ∀ text, s.poll = .answered text → ∃ result ∈ s.node.templates,
    templateReply JsonText.read (.body text) = .ok result
  posted : ∀ body, s.submit = .posted body → ∃ block, AsksFor block body ∧
    BlockFrom s.node.templates block
  blocks : ∀ block ∈ s.node.blocks, BlockFrom s.node.templates block
  calling : s.submit = .idle ↔ s.daemon.submitter.calls = 0
  counts : s.node.blocks.length = s.daemon.accepted + s.unheard + s.submit.told

section

variable {mc : MinerConfig} {client : DaemonRpcClient} {s s' : SoloState} {d' : DaemonState}
  {tr os : List DaemonObs}

theorem solo_start (T : UInt32) : Solo client (.start T) [] where
  answerable := answerable_start T
  handed := by simp
  asked := by simp [SoloState.start]
  told := by simp [SoloState.start]
  posted := by simp [SoloState.start]
  blocks := by simp [SoloState.start]
  calling := ⟨fun _ => rfl, fun _ => rfl⟩
  counts := rfl

/-- The template of a share is one that was handed out. -/
theorem Solo.block (h : Solo client s tr) {found : Found} {template blockBlob : String}
    (hp : s.daemon.submitter = .looking found)
    (ht : s.daemon.templates found.share.jobId = some template)
    (hb : blockTemplateWithNonce template found.share.nonce = some blockBlob) :
    ∃ block, AsksFor block (submitBlockBody blockBlob) ∧ BlockFrom s.node.templates block := by
  obtain ⟨nonce, hnonce⟩ := nonce_of_fromBatch (h.answerable.looking found hp).2
  obtain ⟨result, job, hmem, -, -, rfl⟩ := h.answerable.templates _ _ ht
  rw [hnonce] at hb
  have htakes : TakesNonce result.blocktemplateBlob := by
    by_contra hshort
    have hnone := (blockTemplateWithNonce_eq_none_iff result.blocktemplateBlob
      (formatNonce nonce)).mpr fun hboth => hshort hboth.1
    rw [hb] at hnone
    cases hnone
  obtain ⟨len, hlen, hhex⟩ := htakes
  obtain ⟨bytes, hdecode, rfl⟩ := isHexOf_iff.mp hhex
  obtain ⟨text, htext, hstamp⟩ := decode_blockTemplateWithNonce hdecode hlen nonce
  obtain rfl : blockBlob = text := Option.some.inj (hb.symm.trans htext)
  exact ⟨_, asksFor_submitBlockBody hstamp, result, h.handed _ hmem, bytes, nonce, hdecode, hlen,
    rfl⟩

theorem Solo.quiet (h : Solo client s tr) (hd : Answerable d' (tr ++ os))
    (hresponses : ∀ result, .response result ∉ os) (haccepted : d'.accepted = s.daemon.accepted)
    (hcalls : d'.submitter.calls = s.daemon.submitter.calls) :
    Solo client { s with daemon := d' } (tr ++ os) :=
  { h with
    answerable := hd
    handed := fun result hmem => by
      rcases List.mem_append.mp hmem with hmem | hmem
      · exact h.handed result hmem
      · exact absurd hmem (hresponses result)
    calling := by
      rw [hcalls]
      exact h.calling
    counts := by
      rw [haccepted]
      exact h.counts }

/-- The submit loop posts a block. -/
theorem Solo.posts (h : Solo client s tr) {found : Found} {template blockBlob : String}
    (hd : Answerable d' (tr ++ [.submitBlock found blockBlob]))
    (haccepted : d'.accepted = s.daemon.accepted)
    (hp : s.daemon.submitter = .looking found) (hp' : d'.submitter = .submitting found)
    (ht : s.daemon.templates found.share.jobId = some template)
    (hb : blockTemplateWithNonce template found.share.nonce = some blockBlob) :
    Solo client { s with daemon := d', submit := .posted (submitBlockBody blockBlob) }
      (tr ++ [.submitBlock found blockBlob]) := by
  have hidle : s.submit = .idle := h.calling.mpr (by rw [hp]; rfl)
  have hcounts := h.counts
  rw [hidle] at hcounts
  exact
    { h with
      answerable := hd
      handed := fun result hmem => by
        rcases List.mem_append.mp hmem with hmem | hmem
        · exact h.handed result hmem
        · simp at hmem
      posted := fun body hbody => by
        cases hbody
        exact h.block hp ht hb
      calling := by simp [hp', SubmitterPhase.calls]
      counts := by
        rw [haccepted]
        exact hcounts }

/-- A call of the polling task comes back. -/
theorem Solo.finishPoll (h : Solo client s tr) {result : Option BlockTemplateResult}
    (hs : daemonStep mc s.daemon (.response result) = some (d', os))
    (hresult : ∀ r, result = some r → r ∈ s.node.templates) :
    Solo client { s with daemon := d', poll := .idle } (tr ++ os) := by
  obtain ⟨hsubmitter, haccepted, hresponses⟩ := response_of_step hs
  exact
    { h with
      answerable := answerable_step h.answerable hs
      handed := fun other hmem => by
        rcases List.mem_append.mp hmem with hmem | hmem
        · exact h.handed other hmem
        · exact hresult other (hresponses other hmem)
      asked := by simp
      told := by simp
      calling := by
        rw [hsubmitter]
        exact h.calling
      counts := by
        rw [haccepted]
        exact h.counts }

/-- A call of the submit loop comes back. -/
theorem Solo.finishSubmit (h : Solo client s tr) {ok : Bool} {unheard : Nat}
    (hs : daemonStep mc s.daemon (.submitted ok) = some (d', os))
    (hcounts : s.node.blocks.length = s.daemon.accepted + (if ok then 1 else 0) + unheard) :
    Solo client { s with daemon := d', submit := .idle, unheard := unheard } (tr ++ os) := by
  obtain ⟨rfl, -, hselecting, haccepted, -⟩ := submitted_of_step hs
  exact
    { h with
      answerable := answerable_step h.answerable hs
      handed := fun result hmem => h.handed result (by simpa using hmem)
      posted := by simp
      calling := by simp [hselecting, SubmitterPhase.calls]
      counts := by
        rw [haccepted]
        exact hcounts }

/-- The daemon serves the polling task. -/
theorem Solo.servePoll (h : Solo client s tr) {choice : Choice} (hplain : choice.Plain) :
    Solo client
      { s with
        node := { s.node with templates := s.node.templates ++ [choice.result] }
        poll := .answered (resultText (.object (templateFields choice.result ++ choice.extra))) }
      tr :=
  { h with
    handed := fun result hmem => List.mem_append_left _ (h.handed result hmem)
    asked := by simp
    told := fun text htext => by
      cases htext
      exact ⟨choice.result, by simp, templateReply_template hplain⟩
    posted := fun body hbody => by
      obtain ⟨block, hasks, hfrom⟩ := h.posted body hbody
      exact ⟨block, hasks, hfrom.append _⟩
    blocks := fun block hmem => (h.blocks block hmem).append _ }

/-- A served call of the submit loop is not over. -/
theorem Solo.calls_ne_zero (h : Solo client s tr) {body : String}
    (hbody : s.submit = .posted body) : s.daemon.submitter.calls ≠ 0 := by
  intro hzero
  rw [h.calling.mpr hzero] at hbody
  cases hbody

theorem Solo.takes (h : Solo client s tr) {body : String} (hbody : s.submit = .posted body)
    {block : Bytes} (hfrom : BlockFrom s.node.templates block) :
    Solo client
      { s with
        node := { s.node with blocks := s.node.blocks ++ [block] }
        submit := .answered (resultText (.object [("status", .string "OK")])) } tr := by
  have hcalls := h.calls_ne_zero hbody
  have hcounts := h.counts
  rw [hbody] at hcounts
  have htold : (Call.answered (resultText (.object [("status", .string "OK")]))).told = 1 := by
    simp [Call.told, submitReply_ok, Except.isOk, Except.toBool]
  exact
    { h with
      posted := by simp
      blocks := fun other hmem => by
        rcases List.mem_append.mp hmem with hmem | hmem
        · exact h.blocks other hmem
        · obtain rfl := List.mem_singleton.mp hmem
          exact hfrom
      calling := by simp [hcalls]
      counts := by
        rw [htold, List.length_append, hcounts]
        rfl }

theorem Solo.refuses (h : Solo client s tr) {body : String} (hbody : s.submit = .posted body)
    (message : String) :
    Solo client { s with submit := .answered (errorText message) } tr := by
  have hcalls := h.calls_ne_zero hbody
  have hcounts := h.counts
  rw [hbody] at hcounts
  have htold : (Call.answered (errorText message)).told = 0 := by
    simp [Call.told, submitReply_error]
  exact
    { h with
      posted := by simp
      calling := by simp [hcalls]
      counts := by
        rw [htold, hcounts]
        rfl }

/-- The daemon serves the submit loop. -/
theorem Solo.serveSubmit (h : Solo client s tr) {body : String} (hbody : s.submit = .posted body)
    (choice : Choice) :
    Solo client
      { s with
        node := (s.node.serve choice body).1
        submit := .answered (s.node.serve choice body).2 } tr := by
  obtain ⟨block, hasks, hfrom⟩ := h.posted body hbody
  rw [serve_block s.node choice hasks]
  split
  · exact h.takes hbody hfrom
  · exact h.refuses hbody _

/-! ## Every step -/

/-- What else the daemon says is of no account. -/
def ServesPlain (_ : SoloState) (i : SoloInput) : Prop :=
  ∀ caller choice, i = .serve caller choice → choice.Plain

theorem solo_step {i : SoloInput} (h : Solo client s tr) (hplain : ServesPlain s i)
    (hs : soloStep mc client s i = some (s', os)) : Solo client s' (tr ++ os) := by
  cases soloMoves_of_step hs with
  | own hi hd hnone =>
      have hanswerable := answerable_step h.answerable hd
      cases ownStep_of_step hi hd with
      | quiet _ hresponses haccepted hcalls =>
          exact h.quiet hanswerable hresponses haccepted hcalls
      | posts hos _ _ _ _ _ =>
          subst hos
          cases hnone
  | post hi hd hbody =>
      have hanswerable := answerable_step h.answerable hd
      cases ownStep_of_step hi hd with
      | quiet hnone _ _ _ =>
          rw [hnone] at hbody
          cases hbody
      | posts hos haccepted hp hp' ht hb =>
          subst hos
          cases hbody
          exact h.posts hanswerable haccepted hp hp' ht hb
  | ask hidle =>
      rw [List.append_nil]
      exact { h with asked := fun body hbody => by simpa [eq_comm] using hbody, told := by simp }
  | @serve caller choice body hbody =>
      rw [List.append_nil]
      cases caller with
      | poller =>
          obtain rfl := h.asked body hbody
          rw [serve_blockTemplate]
          exact h.servePoll (hplain .poller choice rfl)
      | submitter => exact h.serveSubmit hbody choice
  | @deliver caller text daemon dos htext hd =>
      cases caller with
      | poller =>
          refine h.finishPoll hd fun result hresult => ?_
          obtain ⟨handed, hmem, hread⟩ := h.told text htext
          rw [hread] at hresult
          cases hresult
          exact hmem
      | submitter =>
          have hcounts := h.counts
          have hsubmit : s.submit = .answered text := htext
          rw [hsubmit, Call.told] at hcounts
          have htold : s.node.blocks.length = s.daemon.accepted +
              (if (submitReply JsonText.read (.body text)).isOk then 1 else 0) + s.unheard := by
            omega
          exact h.finishSubmit hd htold
  | losePoll hd => exact h.finishPoll hd (by simp)
  | loseSubmit hd =>
      refine h.finishSubmit hd ?_
      have hcounts := h.counts
      simp only [Bool.false_eq_true, if_false]
      omega

theorem solo_of_run {is : List SoloInput}
    (h : Run (soloStep mc client) ServesPlain (.start mc.threadCount) is s tr) :
    Solo client s tr :=
  h.invariant (solo_start mc.threadCount) fun hsolo hplain hs => solo_step hsolo hplain hs

/-- What the miner does in a run is a run of its own. -/
theorem daemonRun_of_run {is : List SoloInput} {ok : SoloState → SoloInput → Prop}
    (h : Run (soloStep mc client) ok (.start mc.threadCount) is s tr) :
    ∃ js, Run (daemonStep mc) (fun _ _ => True) (.start mc.threadCount) js s.daemon tr := by
  have hrun : ∃ js, Run (daemonStep mc) (fun _ _ => True) (SoloState.start mc.threadCount).daemon js
      s.daemon (tr.filterMap some) := by
    refine h.project SoloState.daemon some fun {s s' os i} _ hs => ?_
    rw [List.filterMap_some]
    cases soloMoves_of_step hs with
    | own _ hd _ | post _ hd _ | losePoll hd | loseSubmit hd => exact Or.inr ⟨_, trivial, hd⟩
    | ask _ => exact Or.inl ⟨rfl, rfl⟩
    | @serve caller _ _ _ => cases caller <;> exact Or.inl ⟨rfl, rfl⟩
    | @deliver caller _ _ _ _ hd => cases caller <;> exact Or.inr ⟨_, trivial, hd⟩
  rwa [List.filterMap_some] at hrun

theorem accounted_of_run {ok : DaemonState → DaemonInput → Prop} {is : List DaemonInput}
    {T : UInt32} {d : DaemonState} (h : Run (daemonStep mc) ok (.start T) is d tr) :
    Accounted is d tr := by
  induction h with
  | nil => exact ⟨rfl, rfl, rfl⟩
  | snoc _ _ hs ih => exact accounted_step ih hs

/-- Only a lost answer leaves the miner in the dark. -/
theorem unheard_of_run {is : List SoloInput} {ok : SoloState → SoloInput → Prop}
    (h : Run (soloStep mc client) ok (.start mc.threadCount) is s tr)
    (hlose : .lose .submitter ∉ is) : s.unheard = 0 := by
  induction h with
  | nil => rfl
  | @snoc is s s' tr os i _ _ hs ih =>
      simp only [List.mem_append, List.mem_singleton, not_or] at hlose
      have hbefore := ih hlose.1
      cases soloMoves_of_step hs with
      | own _ _ _ | post _ _ _ | ask _ | losePoll _ => exact hbefore
      | @serve caller _ _ _ => cases caller <;> exact hbefore
      | @deliver caller _ _ _ _ _ => cases caller <;> exact hbefore
      | loseSubmit _ => exact absurd rfl hlose.2

end

/-! ## The accounts -/

/-- The daemon's blocks against the miner's counters. -/
structure SoloAccounts (is : List SoloInput) (s : SoloState) (tr : List DaemonObs) : Prop where
  own : ∀ block ∈ s.node.blocks, BlockFrom s.node.templates block
  taken : s.node.blocks.length = s.daemon.accepted + s.unheard + s.submit.told
  shares : tr.countP isPopped = s.daemon.accepted + s.daemon.rejected + s.daemon.submitter.held
  heard : .lose .submitter ∉ is → s.unheard = 0

def soloClient : DaemonRpcClient := .new "127.0.0.1:18081" "wallet" none

/-- The template of `soloResult`, and a member that is none of its fields. -/
def soloChoice : Choice :=
  { result := soloResult, extra := [("status", .string "OK")], takes := true }

theorem plain_soloChoice : soloChoice.Plain where
  wellFormed := .object (by decide) (List.forall_mem_singleton.mpr (.string _))
  other := by decide

def soloServed : SoloState :=
  { daemon := soloKept, poll := .idle, submit := .idle
    node := { templates := [soloResult], blocks := [] }, unheard := 0 }

/-- The template is posted and waits to be delivered. -/
def soloAnswered : SoloState :=
  { SoloState.start 1 with
    node := { templates := [soloResult], blocks := [] }
    poll := .answered
      (resultText (.object (templateFields soloChoice.result ++ soloChoice.extra))) }

theorem deliver_template {mc : MinerConfig} {client : DaemonRpcClient} {s : SoloState}
    {d' : DaemonState} {os : List DaemonObs} {choice : Choice} (h : choice.Plain)
    (htext : s.poll = .answered
      (resultText (.object (templateFields choice.result ++ choice.extra))))
    (hd : daemonStep mc s.daemon (.response (some choice.result)) = some (d', os)) :
    soloStep mc client s (.deliver .poller) =
      some ({ s with daemon := d', poll := .idle }, os) := by
  have hread := templateReply_template h
  simp only [soloStep, SoloState.call, htext, SoloState.finish, replyInput, hread,
    Except.toOption, hd]
  rfl

theorem serve_soloChoice : soloStep soloMiner soloClient
    { SoloState.start 1 with poll := .posted soloClient.blockTemplateBody }
    (.serve .poller soloChoice) = some (soloAnswered, []) := by
  simp only [soloStep, SoloState.call, serve_blockTemplate]
  rfl

theorem response_soloResult : daemonStep soloMiner (.start 1) (.response (some soloResult)) =
    some ({ DaemonState.start 1 with poller := .received soloJob }, [.response soloResult]) := by
  simp only [daemonStep, DaemonState.start, getBlockTemplate_soloResult]
  rfl

/-- The daemon has handed out a template. -/
theorem soloRun_served :
    Run (soloStep soloMiner soloClient) ServesPlain (.start 1)
      [.ask, .serve .poller soloChoice, .deliver .poller, .miner .insert] soloServed
      [.response soloResult] := by
  have hdeliver : soloStep soloMiner soloClient soloAnswered (.deliver .poller) = _ :=
    deliver_template plain_soloChoice rfl response_soloResult
  have hplain : ∀ s, ServesPlain s (.serve .poller soloChoice) := by
    rintro s caller choice ⟨⟩
    exact plain_soloChoice
  have hask : Run (soloStep soloMiner soloClient) ServesPlain (.start 1) [.ask]
      { SoloState.start 1 with poll := .posted soloClient.blockTemplateBody } [] :=
    Run.single (by simp [ServesPlain]) rfl
  exact ((hask.snoc (hplain _) serve_soloChoice).snoc (by simp [ServesPlain]) hdeliver).snoc
    (by simp [ServesPlain]) rfl

def soloBlockInputs : List SoloInput :=
  soloShareInputs.map .miner ++
    [.miner .lookup, .serve .submitter soloChoice, .deliver .submitter]

theorem servesPlain_of_mem {t : SoloState} {i : SoloInput} (hi : i ∈ soloBlockInputs) :
    ServesPlain t i := by
  simp only [soloBlockInputs, List.mem_append, List.mem_map, List.mem_cons, List.not_mem_nil,
    or_false] at hi
  rintro caller choice rfl
  rcases hi with ⟨_, -, h⟩ | h | h | h
  · cases h
  · cases h
  · cases h
    exact plain_soloChoice
  · cases h

end LiteXmr.Daemon
