/-
LiteXmr.Controller.PoolMiningTheorems — the miner and its pool understand each other.

The pool reads a login for a login (`readRequest_login`), and a submit line for the
share that was meant (`readRequest_submit`), as long as nothing that JSON escapes is
in the ids that it has given out itself. The client reads what the pool has
said (`parseLine_text`).

`Conversation` is the protocol: a login, one answer to it, then submits and
their verdicts, with notices anywhere. `talk_step` is the step lemma; it rests on what the
client does when it reads no line (`Conversation.own`) and when it reads one (`hears_of_step`).
-/
import LiteXmr.Controller.PoolJobsTheorems
import LiteXmr.Controller.PoolMining
import LiteXmr.Controller.PoolPipelineTheorems
import LiteXmr.Rust.StrTheorems
import LiteXmr.Stratum.LoginLineTheorems
import LiteXmr.Stratum.SubmitLineTheorems

namespace LiteXmr.Pool

open JsonText Lts Stratum

/-! ## The lines of the client -/

theorem readRequest_login {config : LoginConfig} (h : Figures config.algoPerf) (id : UInt64)
    (p : LoginProfile) :
    readRequest (loginLine config id p) = some { id := .number (.posInt id), share := none } := by
  have hwf := wellFormed_buildLogin id p h
  have hread : JsonText.read (loginLine config id p) = some (ordered (buildLogin config id p)) :=
    read_toText_newline hwf
  have hid : (ordered (buildLogin config id p)).get "id" = some (.number (.posInt id)) := by
    rw [get_ordered hwf, buildLogin_eq]
    rfl
  have hmethod : (ordered (buildLogin config id p)).get "method" = some (.string "login") := by
    rw [get_ordered hwf, buildLogin_eq]
    rfl
  simp only [readRequest, hread, hid, hmethod, Option.bind_eq_bind, Option.bind_some, Json.asStr,
    if_pos, pure]

theorem readRequest_submit {sid : String} {submission : Submission}
    (hnonce : Base16.IsHex submission.nonce) (hresult : Base16.IsHex submission.result)
    (hsid : Plain sid.toList) (hjob : Plain submission.jobId.toList) (id : UInt64) :
    readRequest (buildSubmit sid submission id) = some
      { id := .number (.posInt id), share := some { sessionId := sid, submission } } := by
  rw [readRequest, read_buildSubmit hnonce hresult hsid hjob]
  rfl

/-! ## The lines of the pool -/

/-- What the pool answers with: members that JSON can spell, without an id or a method of
their own, and ids in them that need no escape. The parser reads every line that they make. -/
structure PlainAnswer (config : ClientConfig) (members : List (String × Json)) : Prop where
  wellFormed : WellFormed (.object members)
  reads : ∀ id : UInt64, config.parse (toText (answerWith (.number (.posInt id)) members)) =
    .ok (ordered (answerWith (.number (.posInt id)) members))
  id : "id" ∉ members.map Prod.fst
  method : "method" ∉ members.map Prod.fst
  session : Plain (loginResult (ordered (.object members))).1.toList
  job : ∀ job, JobOfLogin (ordered (.object members)) job → Plain job.jobId.toList

/-- What the pool says by itself: it has a method, and no id but null. The parser reads it. -/
structure PlainNotice (config : ClientConfig) (members : List (String × Json)) : Prop where
  wellFormed : WellFormed (.object members)
  reads : config.parse (toText (.object members)) = .ok (ordered (.object members))
  id : ∀ v, Json.lookup "id" members = some v → v = .null
  method : ∃ method, Json.lookup "method" members = some (.string method)
  job : ∀ job, JobOfMessage (ordered (.object members)) job → Plain job.jobId.toList

section Messages

variable {config : ClientConfig} {members : List (String × Json)}

theorem wellFormed_answerWith (hwf : WellFormed (.object members))
    (hid : "id" ∉ members.map Prod.fst) (id : UInt64) :
    WellFormed (answerWith (.number (.posInt id)) members) := by
  cases hwf with
  | object hkeys hvalues =>
      exact .object (List.nodup_cons.mpr ⟨hid, hkeys⟩)
        (List.forall_mem_cons.mpr ⟨.posInt id, hvalues⟩)

theorem PlainAnswer.wellFormed_answer (h : PlainAnswer config members) (id : UInt64) :
    WellFormed (answerWith (.number (.posInt id)) members) :=
  wellFormed_answerWith h.wellFormed h.id id

theorem get_answerWith_id (h : PlainAnswer config members) (id : UInt64) :
    (ordered (answerWith (.number (.posInt id)) members)).get "id" =
      some (.number (.posInt id)) := by
  rw [get_ordered (h.wellFormed_answer id)]
  rfl

theorem get_answerWith (h : PlainAnswer config members) (id : UInt64) {key : String}
    (hkey : key ≠ "id") :
    (ordered (answerWith (.number (.posInt id)) members)).get key =
      (Json.lookup key members).map ordered := by
  rw [get_ordered (h.wellFormed_answer id), answerWith, Json.get, Json.lookup,
    if_neg hkey.symm]

theorem loginResult_answerWith (h : PlainAnswer config members) (id : UInt64) :
    loginResult (ordered (answerWith (.number (.posInt id)) members)) =
      loginResult (ordered (.object members)) := by
  have hresult : (ordered (answerWith (.number (.posInt id)) members)).get "result" =
      (ordered (.object members)).get "result" := by
    rw [get_answerWith h id (by decide), get_ordered h.wellFormed]
    rfl
  rw [loginResult, loginResult, hresult]

theorem ordered_eq_null {v : Json} (h : ordered v = .null) : v = .null := by
  cases v <;> first | rfl | cases h

/-- The verdict that the client reads is the one that was meant. -/
theorem replyOf_answerWith (h : PlainAnswer config members) (id : UInt64) :
    ∃ event, replyOf (ordered (answerWith (.number (.posInt id)) members)) = some event ∧
      isAccepted event = withoutError members ∧ isRejected event = !withoutError members := by
  have hid := get_answerWith_id h id
  have hmethod : (ordered (answerWith (.number (.posInt id)) members)).get "method" = none := by
    rw [get_answerWith h id (by decide), lookup_eq_none h.method]
    rfl
  have herror := get_answerWith h id (show "error" ≠ "id" by decide)
  refine ⟨_, (replyOf_eq_some_iff _ _).mpr ⟨by rw [hid]; rfl, by rw [hmethod]; rfl, rfl⟩, ?_⟩
  rw [herror, withoutError]
  cases hlookup : Json.lookup "error" members with
  | none => exact ⟨rfl, rfl⟩
  | some v =>
      by_cases hnull : v = .null
      · subst hnull
        exact ⟨rfl, rfl⟩
      · have hne : ordered v ≠ .null := fun h => hnull (ordered_eq_null h)
        simp only [Option.map_some]
        exact ⟨rfl, rfl⟩

theorem get_notice (h : PlainNotice config members) (key : String) :
    (ordered (.object members)).get key = (Json.lookup key members).map ordered :=
  get_ordered h.wellFormed key

/-- A notice is not taken for a reply. -/
theorem replyOf_notice (h : PlainNotice config members) :
    replyOf (ordered (.object members)) = none := by
  obtain ⟨method, hmethod⟩ := h.method
  refine Option.eq_none_iff_forall_ne_some.mpr fun event hevent => ?_
  obtain ⟨-, hnone, -⟩ := (replyOf_eq_some_iff _ _).mp hevent
  rw [get_notice h, hmethod] at hnone
  cases hnone

theorem id_notice (h : PlainNotice config members) :
    ((ordered (.object members)).get "id").bind Json.asU64 = none := by
  rw [get_notice h]
  cases hlookup : Json.lookup "id" members with
  | none => rfl
  | some v =>
      obtain rfl := h.id v hlookup
      rfl

end Messages

/-! ### The text of an object -/

theorem exists_writeFields (first : Bool) (fields : List (String × Json)) :
    ∃ cs, writeFields first fields = cs ++ ['\x7d'] := by
  induction fields generalizing first with
  | nil => exact ⟨[], rfl⟩
  | cons f fields ih =>
      obtain ⟨cs, hcs⟩ := ih false
      refine ⟨separator first ++ (writeString f.1 ++ ':' :: write f.2) ++ cs, ?_⟩
      rw [writeFields, hcs, List.append_assoc _ cs]

/-- The line is not empty and has no white space at its ends. -/
theorem trim_text {members : List (String × Json)} :
    Str.trim (toText (.object members)) = toText (.object members) ∧
      toText (.object members) ≠ "" := by
  obtain ⟨cs, hcs⟩ := exists_writeFields true (orderedFields [] members)
  have htext : (toText (.object members)).toList = '\x7b' :: (cs ++ ['\x7d']) := by
    rw [toText, String.toList_ofList, ordered, write, hcs]
  refine ⟨Str.trim_of_trimmed ⟨fun c hc => ?_, fun c hc => ?_⟩, fun hempty => ?_⟩
  · rw [htext] at hc
    cases hc
    decide
  · rw [htext, ← List.cons_append, List.getLast?_concat] at hc
    cases hc
    decide
  · rw [hempty] at htext
    cases htext

/-! ## What the pool says -/

/-- The messages of a pool that answers and notifies plainly. -/
inductive PoolMessage.Sound (config : ClientConfig) : PoolMessage → Prop where
  | greeting {members : List (String × Json)} (h : PlainAnswer config members) (id : UInt64) :
      Sound config (.greeting (answerWith (.number (.posInt id)) members))
  | verdict {members : List (String × Json)} (h : PlainAnswer config members) (id : UInt64) :
      Sound config (.verdict (withoutError members) (answerWith (.number (.posInt id)) members))
  | notice {members : List (String × Json)} (h : PlainNotice config members) :
      Sound config (.notice (.object members))

def PoolMessage.isGreeting : PoolMessage → Bool
  | .greeting _ => true
  | _ => false

def PoolMessage.isNotice : PoolMessage → Bool
  | .notice _ => true
  | _ => false

/-- It says that a share is taken. -/
def PoolMessage.takes : PoolMessage → Bool
  | .verdict taken _ => taken
  | _ => false

def PoolMessage.refuses : PoolMessage → Bool
  | .verdict taken _ => !taken
  | _ => false

section Sound

variable {config : ClientConfig} {message : PoolMessage}

theorem PoolMessage.Sound.trim_text (h : message.Sound config) :
    Str.trim message.text = message.text ∧ message.text ≠ "" := by
  cases h <;> exact Pool.trim_text

theorem parseLine_text (h : message.Sound config) :
    config.parseLine message.text = .ok (ordered message.msg) := by
  have hparse : config.parse message.text = .ok (ordered message.msg) := by
    cases h with
    | greeting h id | verdict h id => exact h.reads id
    | notice h => exact h.reads
  rw [ClientConfig.parseLine, parseJsonLine, hparse]

/-- Handled as a message, it counts as the verdict that it is. -/
theorem PoolMessage.Sound.replyOf (h : message.Sound config)
    (hgreeting : message.isGreeting = false) :
    (Stratum.replyOf (ordered message.msg)).toList.countP isAccepted = [message].countP (·.takes) ∧
      (Stratum.replyOf (ordered message.msg)).toList.countP isRejected =
        [message].countP (·.refuses) := by
  cases h with
  | greeting h id => cases hgreeting
  | verdict h id =>
      obtain ⟨event, hreply, haccepted, hrejected⟩ := replyOf_answerWith h id
      rw [PoolMessage.msg, hreply]
      simp [haccepted, hrejected, PoolMessage.takes, PoolMessage.refuses]
  | notice h =>
      rw [PoolMessage.msg, replyOf_notice h]
      exact ⟨rfl, rfl⟩

/-- A job in a message that answers something is the job of a login. -/
theorem PoolMessage.Sound.plain_jobOfMessage (h : message.Sound config) {job : Job}
    (hjob : JobOfMessage (ordered message.msg) job) : Plain job.jobId.toList := by
  have hanswer : ∀ {members : List (String × Json)}, PlainAnswer config members → ∀ id : UInt64,
      ¬ JobOfMessage (ordered (answerWith (.number (.posInt id)) members)) job := by
    intro members h id hjob
    have hmethod := get_answerWith h id (show "method" ≠ "id" by decide)
    rw [lookup_eq_none h.method] at hmethod
    rw [JobOfMessage, hmethod] at hjob
    rcases hjob with ⟨hjob, -⟩ | ⟨hjob, -⟩ <;> cases hjob
  cases h with
  | greeting h id => exact absurd hjob (hanswer h id)
  | verdict h id => exact absurd hjob (hanswer h id)
  | notice h => exact h.job job hjob

theorem jobOfLogin_answerWith {members : List (String × Json)} (h : PlainAnswer config members)
    (id : UInt64) {job : Job} :
    JobOfLogin (ordered (answerWith (.number (.posInt id)) members)) job ↔
      JobOfLogin (ordered (.object members)) job := by
  rw [← loginResult_eq_newJob_iff, ← loginResult_eq_newJob_iff, loginResult_answerWith h]

theorem PoolMessage.Sound.plain_jobOfLogin (h : message.Sound config)
    (hid : ((ordered message.msg).get "id").bind Json.asU64 ≠ none) {job : Job}
    (hjob : JobOfLogin (ordered message.msg) job) : Plain job.jobId.toList := by
  cases h with
  | greeting h id | verdict h id => exact h.job job ((jobOfLogin_answerWith h id).mp hjob)
  | notice h => exact absurd (id_notice h) hid

end Sound

/-! ## The conversation -/

/-- The pool reads the line as a submit. -/
def IsSubmit (line : String) : Prop :=
  ∃ (id : UInt64) (share : ReadShare),
    readRequest line = some { id := .number (.posInt id), share := some share }

/-- What is under way in a phase of the client, from it and to it. -/
inductive Conversation (config : LoginConfig) :
    Phase → List String → List PoolMessage → Prop where
  | silent {phase : Phase} (hphase : phase.connected = false) : Conversation config phase [] []
  | asking {phase : Phase} {p : LoginProfile} {id : UInt64} {notices : List PoolMessage}
      (hphase : phase = .sendingLogin p id ∨ phase = .awaitingReply p id)
      (hnotices : ∀ m ∈ notices, m.isNotice = true) :
      Conversation config phase [loginLine config id p] notices
  | greeted {phase : Phase} {p : LoginProfile} {id : UInt64} {msg : Json}
      {before after : List PoolMessage}
      (hphase : phase = .sendingLogin p id ∨ phase = .awaitingReply p id)
      (hid : (ordered msg).get "id" = some (.number (.posInt id)))
      (hbefore : ∀ m ∈ before, m.isNotice = true) (hafter : ∀ m ∈ after, m.isNotice = true) :
      Conversation config phase [] (before ++ .greeting msg :: after)
  | mining {phase : Phase} {sid : String} {lines : List String} {messages : List PoolMessage}
      (hphase : phase.sessionId = some sid) (hlines : ∀ line ∈ lines, IsSubmit line)
      (hmessages : ∀ m ∈ messages, m.isGreeting = false) :
      Conversation config phase lines messages
  | keepalive {p : LoginProfile} {notices : List PoolMessage}
      (hnotices : ∀ m ∈ notices, m.isNotice = true) :
      Conversation config (.keepalive p) [] notices

section Conversation

variable {config : LoginConfig} {phase phase' : Phase} {lines : List String}
  {messages rest : List PoolMessage} {message : PoolMessage} {p : LoginProfile} {id : UInt64}
  {sid : String}

theorem connected_of_sessionId (h : phase.sessionId = some sid) : phase.connected = true := by
  cases phase <;> first | rfl | cases h

theorem Conversation.of_silent (h : Conversation config phase lines messages)
    (hphase : phase.connected = false) : lines = [] ∧ messages = [] := by
  cases h with
  | silent _ => exact ⟨rfl, rfl⟩
  | asking h _ | greeted h _ _ _ => rcases h with rfl | rfl <;> cases hphase
  | mining h _ _ =>
      rw [connected_of_sessionId h] at hphase
      cases hphase
  | keepalive _ => cases hphase

/-- The next message before the login is answered. -/
theorem Conversation.awaiting
    (h : Conversation config (.awaitingReply p id) lines (message :: rest)) :
    (message.isNotice = true ∧ Conversation config (.awaitingReply p id) lines rest) ∨
      ∃ msg, message = .greeting msg ∧ (ordered msg).get "id" = some (.number (.posInt id)) ∧
        lines = [] ∧ ∀ m ∈ rest, m.isNotice = true := by
  generalize hq : message :: rest = queue at h
  cases h with
  | silent h => cases h
  | asking hphase hnotices =>
      subst hq
      obtain ⟨hmessage, hrest⟩ := List.forall_mem_cons.mp hnotices
      exact Or.inl ⟨hmessage, .asking hphase hrest⟩
  | @greeted _ p' id' msg before after hphase hid hbefore hafter =>
      obtain ⟨rfl, rfl⟩ : p = p' ∧ id = id' := by simpa using hphase
      cases before with
      | nil =>
          cases hq
          exact Or.inr ⟨msg, rfl, hid, rfl, hafter⟩
      | cons m before =>
          cases hq
          obtain ⟨hmessage, hrest⟩ := List.forall_mem_cons.mp hbefore
          exact Or.inl ⟨hmessage, .greeted hphase hid hrest hafter⟩
  | mining h _ _ => cases h

theorem Conversation.next_mining (h : Conversation config phase lines (message :: rest))
    (hsid : phase.sessionId = some sid) :
    message.isGreeting = false ∧ Conversation config phase lines rest := by
  generalize hq : message :: rest = queue at h
  cases h with
  | silent h => cases hq
  | asking h _ | greeted h _ _ _ => rcases h with rfl | rfl <;> cases hsid
  | mining hphase hlines hmessages =>
      subst hq
      obtain ⟨hmessage, hrest⟩ := List.forall_mem_cons.mp hmessages
      exact ⟨hmessage, .mining hphase hlines hrest⟩
  | keepalive _ => cases hsid

theorem Conversation.next_keepalive
    (h : Conversation config (.keepalive p) lines (message :: rest)) :
    message.isNotice = true ∧ Conversation config (.keepalive p) lines rest := by
  generalize hq : message :: rest = queue at h
  cases h with
  | silent h => cases h
  | asking h _ | greeted h _ _ _ => simp at h
  | mining h _ _ => cases h
  | keepalive hnotices =>
      subst hq
      obtain ⟨hmessage, hrest⟩ := List.forall_mem_cons.mp hnotices
      exact ⟨hmessage, .keepalive hrest⟩

theorem isGreeting_of_isNotice (h : message.isNotice = true) : message.isGreeting = false := by
  cases message <;> first | rfl | cases h

theorem Conversation.notify (h : Conversation config phase lines messages)
    (hphase : phase.connected = true) (msg : Json) :
    Conversation config phase lines (messages ++ [.notice msg]) := by
  have hnotices : ∀ {ms : List PoolMessage}, (∀ m ∈ ms, m.isNotice = true) →
      ∀ m ∈ ms ++ [.notice msg], m.isNotice = true := fun hms =>
    List.forall_mem_append.mpr ⟨hms, by simp [PoolMessage.isNotice]⟩
  cases h with
  | silent h =>
      rw [h] at hphase
      cases hphase
  | asking h hms => exact .asking h (hnotices hms)
  | @greeted _ _ _ greeting before after h hid hbefore hafter =>
      rw [List.append_assoc]
      exact .greeted h hid hbefore (hnotices hafter)
  | mining h hlines hms =>
      exact .mining h hlines (List.forall_mem_append.mpr ⟨hms, by simp [PoolMessage.isGreeting]⟩)
  | keepalive hms => exact .keepalive (hnotices hms)

/-- The same phase but for a write that is done. -/
theorem Conversation.written (h : Conversation config phase lines messages)
    (hphase : (∃ p id, phase = .sendingLogin p id ∧ phase' = .awaitingReply p id) ∨
      ∃ p sid, phase = .writing p sid ∧ phase' = .mining p sid) :
    Conversation config phase' lines messages := by
  rcases hphase with ⟨p, id, rfl, rfl⟩ | ⟨p, sid, rfl, rfl⟩
  · cases h with
    | silent h => cases h
    | asking h hms =>
        obtain ⟨rfl, rfl⟩ : p = _ ∧ id = _ := by simpa using h
        exact .asking (Or.inr rfl) hms
    | greeted h hid hbefore hafter =>
        obtain ⟨rfl, rfl⟩ : p = _ ∧ id = _ := by simpa using h
        exact .greeted (Or.inr rfl) hid hbefore hafter
    | mining h _ _ => cases h
  · cases h with
    | silent h => cases h
    | asking h _ | greeted h _ _ _ => simp at h
    | mining h hlines hms => exact .mining rfl hlines hms

theorem Conversation.submit (h : Conversation config (.mining p sid) lines messages)
    {line : String} (hline : IsSubmit line) :
    Conversation config (.writing p sid) (lines ++ [line]) messages := by
  cases h with
  | silent h => cases h
  | asking h _ | greeted h _ _ _ => simp at h
  | mining h hlines hms =>
      exact .mining rfl
        (List.forall_mem_append.mpr ⟨hlines, List.forall_mem_singleton.mpr hline⟩) hms

end Conversation

/-! ## Steps of the client -/

section ClientSteps

variable {config : ClientConfig} {c c' : Client} {i : ClientInput} {os : List ClientObs}
  {lines : List String} {messages rest : List PoolMessage} {message : PoolMessage}

/-- Without reading a line the client handles no message. -/
theorem quiet_of_step (hi : ∀ line, i ≠ .read (.line line))
    (hs : clientStep config c i = some (c', os)) :
    os.filterMap ClientObs.reply = [] ∧ publishedJobs os = [] ∧
      (c'.phase.crashed = true → c.phase.crashed = true) ∧
      ∀ sid, c'.phase.sessionId = some sid → c.phase.sessionId = some sid := by
  cases clientMoves_of_step hs with
  | loggedIn _ _ _ _ _ | earlyMessage _ _ _ _ | message _ _ _ _ | skip _ _ _ | panic _ _
    | overflow _ _ =>
      exact absurd rfl (hi _)
  | stop | watch _ | send _ => exact ⟨rfl, rfl, id, fun _ => id⟩
  | attempt _ _ _ | opened _ _ | leave _ _ _ | eof _ _ | shutdown _ _ _ | loginSent _ _
    | wake _ _ =>
      exact ⟨rfl, rfl, (fun h => by cases h), fun _ h => by cases h⟩
  | submit _ hp | submitted _ hp =>
      exact ⟨rfl, rfl, (fun h => by cases h), fun _ h => by rw [hp]; exact h⟩
  | @failed p e _ _ _ =>
      rcases c.fail_cases p e with ⟨next, -, -, hf⟩ | hf
      · rw [hf]
        exact ⟨rfl, rfl, (fun h => by cases h), fun _ h => by cases h⟩
      · rw [hf]
        exact ⟨rfl, rfl, (fun h => by cases h), fun _ h => by cases h⟩

/-- What the client does without reading a line, as far as it has a connection then. -/
theorem Conversation.own (h : Conversation config.login c.phase lines messages)
    (hi : ∀ line, i ≠ .read (.line line))
    (hsubmit : ∀ sid id submission line, .submit sid id submission line ∈ os → IsSubmit line)
    (hs : clientStep config c i = some (c', os)) (hphase : c'.phase.connected = true) :
    Conversation config.login c'.phase
      (lines ++ (os.map PoolObs.client).filterMap writtenLine) messages := by
  have hleft : c'.phase.connected = false → Conversation config.login c'.phase
      (lines ++ (os.map PoolObs.client).filterMap writtenLine) messages := fun hfalse => by
    rw [hfalse] at hphase
    cases hphase
  cases clientMoves_of_step hs with
  | loggedIn _ _ _ _ _ | earlyMessage _ _ _ _ | message _ _ _ _ | skip _ _ _ | panic _ _
    | overflow _ _ =>
      exact absurd rfl (hi _)
  | stop | watch _ | send _ => simpa [List.filterMap_cons, writtenLine] using h
  | attempt _ _ _ | wake _ _ => exact hleft rfl
  | leave _ _ _ | eof _ _ | shutdown _ _ _ => exact hleft rfl
  | opened _ hp =>
      obtain ⟨rfl, rfl⟩ := h.of_silent (by rw [hp]; rfl)
      exact .asking (Or.inl rfl) (by simp)
  | loginSent _ hp =>
      rw [hp] at h
      simpa using h.written (Or.inl ⟨_, _, rfl, rfl⟩)
  | submit _ hp =>
      rw [hp] at h
      exact h.submit (hsubmit _ _ _ _ (List.mem_singleton_self _))
  | submitted _ hp =>
      rw [hp] at h
      simpa using h.written (Or.inr ⟨_, _, rfl, rfl⟩)
  | @failed p e _ _ _ => exact hleft (fail_not_connected c p e).1

/-- What a message of the pool leads to. -/
structure Hears (config : ClientConfig) (message : PoolMessage) (lines : List String)
    (rest : List PoolMessage) (c c' : Client) (os : List ClientObs) : Prop where
  alive : c'.phase.crashed = false
  conversation : c'.phase.connected = true → Conversation config.login c'.phase lines rest
  written : (os.map PoolObs.client).filterMap writtenLine = []
  accepted : (os.filterMap ClientObs.reply).countP isAccepted = [message].countP (·.takes)
  rejected : (os.filterMap ClientObs.reply).countP isRejected = [message].countP (·.refuses)
  session : ∀ sid, c'.phase.sessionId = some sid →
    c.phase.sessionId = some sid ∨
      message.isGreeting = true ∧ (loginResult (ordered message.msg)).1 = sid
  jobs : ∀ job ∈ publishedJobs os, Plain job.jobId.toList ∧
    (JobOfMessage (ordered message.msg) job ∨ JobOfLogin (ordered message.msg) job)

theorem writtenLine_message (c : Client) (msg : Json) :
    ((c.message msg).2.map PoolObs.client).filterMap writtenLine = [] := by
  rw [Client.message, List.map_cons, List.filterMap_cons, List.filterMap_map]
  exact filterMap_published (fun _ => rfl) _

theorem writtenLine_loggedIn (c : Client) (config : ClientConfig) (p : LoginProfile)
    (msg : Json) : ((c.loggedIn config p msg).2.map PoolObs.client).filterMap writtenLine = [] := by
  rw [Client.loggedIn, List.map_cons, List.filterMap_cons, List.filterMap_map]
  exact filterMap_published (fun _ => rfl) _

theorem reply_message (c : Client) (msg : Json) :
    (c.message msg).2.filterMap ClientObs.reply = (replyOf msg).toList := by
  rw [Client.message, List.filterMap_cons, filterMap_published (fun _ => rfl)]
  simp only [ClientObs.reply]
  cases replyOf msg <;> rfl

theorem reply_loggedIn (c : Client) (config : ClientConfig) (p : LoginProfile) (msg : Json) :
    (c.loggedIn config p msg).2.filterMap ClientObs.reply = [] := by
  rw [Client.loggedIn, List.filterMap_cons]
  exact filterMap_published (fun _ => rfl) _

/-- The jobs of a line of the pool. -/
theorem jobs_of_step (hsound : message.Sound config)
    (hs : clientStep config c (.read (.line message.text)) = some (c', os)) :
    ∀ job ∈ publishedJobs os, Plain job.jobId.toList ∧
      (JobOfMessage (ordered message.msg) job ∨ JobOfLogin (ordered message.msg) job) := by
  intro job hmem
  rcases publishesAs_of_step hs with ⟨delivered, hdelivers, hjobs, -⟩ | ⟨-, hjobs⟩
  · rw [hjobs, List.mem_singleton] at hmem
    subst hmem
    cases hdelivers with
    | login _ hl hid _ hjob =>
        rw [parseLine_text hsound, Except.ok.injEq] at hl
        subst hl
        exact ⟨hsound.plain_jobOfLogin (by rw [hid]; simp) hjob, Or.inr hjob⟩
    | early _ hl _ hjob =>
        rw [parseLine_text hsound, Except.ok.injEq] at hl
        subst hl
        exact ⟨hsound.plain_jobOfMessage hjob, Or.inl hjob⟩
    | session _ _ hl hjob =>
        rw [hsound.trim_text.1, parseLine_text hsound, Except.ok.injEq] at hl
        subst hl
        exact ⟨hsound.plain_jobOfMessage hjob, Or.inl hjob⟩
  · rw [hjobs] at hmem
    cases hmem

theorem PoolMessage.takes_of_isNotice (h : message.isNotice = true) :
    [message].countP (·.takes) = 0 ∧ [message].countP (·.refuses) = 0 := by
  cases message <;> first | exact ⟨rfl, rfl⟩ | cases h

/-- The answer to the login opens the session. -/
theorem hears_loggedIn {p : LoginProfile} {msg : Json}
    (hrest : ∀ m ∈ rest, m.isNotice = true)
    (hjobs : ∀ job ∈ publishedJobs (c.loggedIn config p (ordered msg)).2,
      Plain job.jobId.toList ∧ (JobOfMessage (ordered msg) job ∨ JobOfLogin (ordered msg) job)) :
    Hears config (.greeting msg) [] rest c (c.loggedIn config p (ordered msg)).1
      (c.loggedIn config p (ordered msg)).2 := by
  refine ⟨?_, fun _ => ?_, writtenLine_loggedIn _ _ _ _, ?_, ?_, fun sid hsid => ?_, hjobs⟩
  · simp only [Client.loggedIn]
    split <;> rfl
  · simp only [Client.loggedIn]
    split
    · exact .keepalive hrest
    · exact .mining rfl (by simp) fun m hm => isGreeting_of_isNotice (hrest m hm)
  · rw [reply_loggedIn]
    rfl
  · rw [reply_loggedIn]
    rfl
  · refine Or.inr ⟨rfl, ?_⟩
    simp only [Client.loggedIn] at hsid
    split at hsid
    · cases hsid
    · exact Option.some.inj hsid

/-- Any other message leaves the client where it is. -/
theorem hears_message (hsound : message.Sound config) (hgreeting : message.isGreeting = false)
    (halive : c.phase.crashed = false) (hrest : Conversation config.login c.phase lines rest)
    (hjobs : ∀ job ∈ publishedJobs (c.message (ordered message.msg)).2,
      Plain job.jobId.toList ∧
        (JobOfMessage (ordered message.msg) job ∨ JobOfLogin (ordered message.msg) job)) :
    Hears config message lines rest c (c.message (ordered message.msg)).1
      (c.message (ordered message.msg)).2 := by
  obtain ⟨haccepted, hrejected⟩ := hsound.replyOf hgreeting
  refine ⟨halive, fun _ => hrest, writtenLine_message _ _, ?_, ?_, fun sid hsid => Or.inl hsid,
    hjobs⟩
  · rw [reply_message, haccepted]
  · rw [reply_message, hrejected]

theorem hears_of_step (hsound : message.Sound config)
    (h : Conversation config.login c.phase lines (message :: rest))
    (hs : clientStep config c (.read (.line message.text)) = some (c', os)) :
    Hears config message lines rest c c' os := by
  have hjobs := jobs_of_step hsound hs
  have hline := parseLine_text hsound
  obtain ⟨htrim, hne⟩ := hsound.trim_text
  cases clientMoves_of_step hs with
  | @loggedIn p id _ msg _ hp hl hid _ =>
      rw [hline, Except.ok.injEq] at hl
      subst hl
      rw [hp] at h
      rcases h.awaiting with ⟨hnotice, -⟩ | ⟨msg, rfl, -, rfl, hrest⟩
      · -- a notice has no id
        cases hsound with
        | greeting _ _ | verdict _ _ => cases hnotice
        | notice hplain =>
            rw [PoolMessage.msg, id_notice hplain] at hid
            cases hid
      · exact hears_loggedIn hrest hjobs
  | @earlyMessage p id _ msg _ hp hl hid =>
      rw [hline, Except.ok.injEq] at hl
      subst hl
      rw [hp] at h
      rcases h.awaiting with ⟨hnotice, hrest⟩ | ⟨msg, rfl, hmsg, -, -⟩
      · refine hears_message hsound (isGreeting_of_isNotice hnotice) ?_ ?_ hjobs
        · rw [hp]
          rfl
        · rw [hp]
          exact hrest
      · rw [PoolMessage.msg, hmsg] at hid
        exact absurd rfl hid
  | @message p sid _ msg _ hp _ hl =>
      rw [htrim, hline, Except.ok.injEq] at hl
      subst hl
      obtain ⟨hgreeting, hrest⟩ := h.next_mining (by rw [hp]; rfl)
      refine hears_message hsound hgreeting ?_ hrest hjobs
      rw [hp]
      rfl
  | skip _ _ hskip =>
      cases hskip with
      | @keepalive p hp _ =>
          rw [hp] at h
          obtain ⟨hnotice, hrest⟩ := h.next_keepalive
          obtain ⟨htakes, hrefuses⟩ := PoolMessage.takes_of_isNotice hnotice
          exact ⟨by rw [hp]; rfl, fun _ => by rw [hp]; exact hrest, rfl, htakes.symm,
            hrefuses.symm, fun sid hsid => Or.inl hsid, hjobs⟩
      | empty _ hempty => exact absurd (htrim.symm.trans hempty) hne
      | refused _ hl _ =>
          rw [htrim, hline] at hl
          cases hl
  | panic _ hbad =>
      obtain ⟨e, hl⟩ := hbad.refused
      rw [htrim, hline] at hl
      cases hl
  | overflow _ hdeep =>
      -- the native parser is not asked
      cases hdeep with
      | login _ hl =>
          rw [hline] at hl
          cases hl
      | mining _ _ hl | keepalive _ hl =>
          rw [htrim, hline] at hl
          cases hl
  | @failed p e _ _ hf =>
      have hmessage : [message].countP (·.takes) = 0 ∧ [message].countP (·.refuses) = 0 := by
        cases hf with
        | loginParse _ hl =>
            rw [hline] at hl
            cases hl
        | loginError hp hl hid _ =>
            rw [hp] at h
            rcases h.awaiting with ⟨hnotice, -⟩ | ⟨msg, rfl, -, -, -⟩
            · exact PoolMessage.takes_of_isNotice hnotice
            · exact ⟨rfl, rfl⟩
      obtain ⟨htakes, hrefuses⟩ := hmessage
      rcases c.fail_cases p e with ⟨next, -, -, hfail⟩ | hfail
      · rw [hfail] at hjobs ⊢
        exact ⟨rfl, (fun hconn => by cases hconn), rfl, htakes.symm, hrefuses.symm,
          (fun sid hsid => by cases hsid), hjobs⟩
      · rw [hfail] at hjobs ⊢
        exact ⟨rfl, (fun hconn => by cases hconn), rfl, htakes.symm, hrefuses.symm,
          (fun sid hsid => by cases hsid), hjobs⟩

end ClientSteps

end LiteXmr.Pool
