/-
LiteXmr.Stratum.ReplyErrorTheorems — errors in replies, to a login and to a share.

A reply is read by two functions: `handle_msg` rejects a share when the reply
has an error that is not null, `get_json_error` fails a login when it can make
a text of the error. `loginFails_iff` and `shareRejected_iff` say what each of
them looks at, so they agree on the replies whose error has a text
(`ErrorRenders`) and on no others.

`reply_errors_agree_iff` adds the runs: the client connects over no reply with
an error exactly when no login reply of the run has an error without a text.
`login_over_error` is a session that begins with one.
-/
import LiteXmr.Stratum.ClientEventTheorems

namespace LiteXmr.Stratum

open Lts

/-! ## What the two functions look at -/

/-- The reply has an error that is not null. -/
def HasError (msg : Json) : Prop := ∃ err, msg.get "error" = some err ∧ err.isNull = false

/-- `get_json_error` finds a text in the error: a string, an array with a string in one of
its first two places, or an object with a message. -/
def Renders : Json → Prop
  | .string _ => True
  | .array xs => (∃ s, xs[1]? = some (.string s)) ∨ ∃ s, xs[0]? = some (.string s)
  | .object fields => ∃ s, Json.lookup "message" fields = some (.string s)
  | _ => False

/-- The error of the reply has a text, if there is one. -/
def ErrorRenders (msg : Json) : Prop :=
  ∀ err, msg.get "error" = some err → err.isNull = false → Renders err

/-- The reply fails a login. -/
def LoginFails (msg : Json) : Prop := ∃ e, getJsonError msg = some e

/-- The reply rejects a share. -/
def ShareRejected (msg : Json) : Prop := ∃ reason, handleMsg msg = .reply (.rejected reason)

theorem bind_asStr_eq_some {value : Option Json} {s : String} :
    value.bind Json.asStr = some s ↔ value = some (.string s) := by
  cases value with
  | none => simp
  | some json => cases json <;> simp [Json.asStr]

theorem exists_or_eq_some {α : Type} {a b : Option α} :
    (∃ x, a.or b = some x) ↔ (∃ x, a = some x) ∨ ∃ x, b = some x := by
  cases a <;> simp

/-- What a login makes of an error that is not null. -/
theorem loginFails_iff_renders {msg err : Json} (he : msg.get "error" = some err)
    (hnull : err.isNull = false) : LoginFails msg ↔ Renders err := by
  unfold LoginFails getJsonError
  simp only [he, hnull, Bool.false_eq_true, if_false]
  cases err with
  | null => cases hnull
  | bool b => simp [Json.asArray, Json.get, Json.asStr, Renders]
  | number n => simp [Json.asArray, Json.get, Json.asStr, Renders]
  | string s => simp [Json.asArray, Json.get, Json.asStr, Renders]
  | array xs =>
      simp only [Json.asArray, Json.get, Json.asStr, Option.bind_none, Option.or_none, Renders,
        exists_or_eq_some, bind_asStr_eq_some]
  | object fields => simp [Json.asArray, Json.get, Json.asStr, Renders, bind_asStr_eq_some]

theorem not_loginFails {msg : Json} (h : ¬ HasError msg) : ¬ LoginFails msg := by
  intro hfails
  obtain ⟨e, hfails⟩ := hfails
  unfold getJsonError at hfails
  split at hfails
  · cases hfails
  · rename_i err he
    split at hfails
    · cases hfails
    · rename_i hnull
      exact h ⟨err, he, Bool.eq_false_iff.mpr hnull⟩

/-- A login fails on the replies with an error that has a text. -/
theorem loginFails_iff (msg : Json) : LoginFails msg ↔ HasError msg ∧ ErrorRenders msg := by
  refine ⟨fun hfails => ?_, fun hboth => ?_⟩
  · have herror : HasError msg := by
      by_contra hnone
      exact not_loginFails hnone hfails
    refine ⟨herror, fun err he hnull => ?_⟩
    exact (loginFails_iff_renders he hnull).mp hfails
  · obtain ⟨⟨err, he, hnull⟩, hrenders⟩ := hboth
    exact (loginFails_iff_renders he hnull).mpr (hrenders err he hnull)

theorem hasError_of_not_errorRenders {msg : Json} (h : ¬ ErrorRenders msg) : HasError msg := by
  by_contra hnone
  exact h fun err he hnull => absurd ⟨err, he, hnull⟩ hnone

/-- A reply rejects a share when it has an error. -/
theorem shareRejected_iff {msg : Json} (hid : (msg.get "id").isSome = true)
    (hmethod : (msg.get "method").bind Json.asStr = none) :
    ShareRejected msg ↔ HasError msg := by
  obtain ⟨id, hid⟩ := Option.isSome_iff_exists.mp hid
  unfold ShareRejected HasError handleMsg
  simp only [hmethod, hid]
  cases msg.get "error" with
  | none => simp
  | some err => cases err <;> simp [Json.isNull]

theorem errors_agree_iff {msg : Json} (hid : (msg.get "id").isSome = true)
    (hmethod : (msg.get "method").bind Json.asStr = none) :
    (LoginFails msg ↔ ShareRejected msg) ∧ (ShareRejected msg ↔ HasError msg) ↔
      ErrorRenders msg := by
  rw [shareRejected_iff hid hmethod, loginFails_iff]
  refine ⟨fun hagree err he hnull => ?_, fun hrenders => ⟨⟨And.left, fun herror => ?_⟩, Iff.rfl⟩⟩
  · exact (hagree.1.mpr ⟨err, he, hnull⟩).2 err he hnull
  · exact ⟨herror, hrenders⟩

/-! ## Logins -/

/-- The step takes a reply with an error for an accepted login and queues `Connected`. -/
def ConnectsOverError (config : ClientConfig) (c : Client) (i : ClientInput) : Prop :=
  ∃ c' os msg, clientStep config c i = some (c', os) ∧ .loginReply msg ∈ os ∧
    .connected ∈ c'.outbox ∧ HasError msg

/-- The step reads a login reply whose error has no text. -/
def ReadsUnrendered (config : ClientConfig) (c : Client) : ClientInput → Prop
  | .read (.line line) =>
      ∃ p id msg, c.phase = .awaitingReply p id ∧ config.parseLine line = .ok msg ∧
        (msg.get "id").bind Json.asU64 = some id ∧ ¬ ErrorRenders msg
  | _ => False

section Steps

variable {config : ClientConfig} {c c' : Client} {i : ClientInput} {os : List ClientObs}

/-- Only the reply to the login is observed as one, when the login does not fail. -/
theorem loginReply_of_step {msg : Json} (hs : clientStep config c i = some (c', os))
    (hmem : .loginReply msg ∈ os) :
    ∃ p id line, i = .read (.line line) ∧ c.phase = .awaitingReply p id ∧
      config.parseLine line = .ok msg ∧ (msg.get "id").bind Json.asU64 = some id ∧
      getJsonError msg = none := by
  have hpublished : ∀ h : Handled, .loginReply msg ∉ h.published := fun h hin =>
    forall_mem_published (P := fun o => o ≠ .loginReply msg) (fun _ => by simp) h _ hin rfl
  cases clientMoves_of_step hs with
  | loggedIn _ hp hl hid he =>
      obtain hhead | hrest := List.mem_cons.mp hmem
      · cases hhead
        exact ⟨_, _, _, rfl, hp, hl, hid, he⟩
      · exact absurd hrest (hpublished _)
  | earlyMessage _ _ _ _ =>
      obtain hhead | hrest := List.mem_cons.mp hmem
      · cases hhead
      · exact absurd hrest (hpublished _)
  | message _ _ _ _ =>
      obtain hhead | hrest := List.mem_cons.mp hmem
      · cases hhead
      · exact absurd hrest (hpublished _)
  | @failed p e _ _ _ =>
      obtain ⟨_, _, _, hf⟩ | hf := c.fail_cases p e
      · rw [hf] at hmem
        simp at hmem
      · rw [hf] at hmem
        simp at hmem
  | _ => simp [Client.finish] at hmem

theorem connectsOverError_iff (hs : clientStep config c i = some (c', os)) :
    ConnectsOverError config c i ↔ ReadsUnrendered config c i := by
  refine ⟨fun hconnects => ?_, fun hreads => ?_⟩
  · obtain ⟨_, _, msg, hs', hmem, _, herror⟩ := hconnects
    obtain ⟨p, id, line, rfl, hp, hl, hid, he⟩ := loginReply_of_step hs' hmem
    refine ⟨p, id, msg, hp, hl, hid, fun hrenders => ?_⟩
    obtain ⟨e, hfails⟩ := (loginFails_iff msg).mpr ⟨herror, hrenders⟩
    rw [he] at hfails
    cases hfails
  · unfold ReadsUnrendered at hreads
    split at hreads
    · obtain ⟨p, id, msg, hp, hl, hid, hrenders⟩ := hreads
      have hnone : getJsonError msg = none := by
        rw [Option.eq_none_iff_forall_ne_some]
        exact fun e he => hrenders ((loginFails_iff msg).mp ⟨e, he⟩).2
      have hline := loginLine_of_step hp hs
      simp only [Client.loginLine, hl, if_pos hid, hnone] at hline
      cases hline
      refine ⟨_, _, msg, hs, List.mem_cons_self, ?_, hasError_of_not_errorRenders hrenders⟩
      exact List.mem_append_right _ (List.mem_singleton.mpr rfl)
    · exact hreads.elim

end Steps

/-- Replies to a login and to a share are read alike exactly when their error, if any,
has a text; and a run connects over no reply with an error exactly when it reads no login
reply whose error has none. -/
theorem reply_errors_agree_iff (config : ClientConfig) :
    (∀ (msg : Json) (id : UInt64), (msg.get "id").bind Json.asU64 = some id →
      (msg.get "method").bind Json.asStr = none →
      ((LoginFails msg ↔ ShareRejected msg) ∧ (ShareRejected msg ↔ HasError msg) ↔
        ErrorRenders msg)) ∧
    ∀ (is : List ClientInput) (c : Client) (tr : List ClientObs),
      Run (clientStep config) (fun _ _ => True) .start is c tr →
      (Run (clientStep config) (fun c i => ¬ ConnectsOverError config c i) .start is c tr ↔
        Run (clientStep config) (fun c i => ¬ ReadsUnrendered config c i) .start is c tr) := by
  refine ⟨fun msg id hid hmethod => ?_, fun is c tr _ => ⟨fun hrun => ?_, fun hrun => ?_⟩⟩
  · refine errors_agree_iff ?_ hmethod
    obtain ⟨_, hid, _⟩ := Option.bind_eq_some_iff.mp hid
    rw [hid]
    rfl
  · exact hrun.mono_steps fun hok hs => mt (connectsOverError_iff hs).mpr hok
  · exact hrun.mono_steps fun hok hs => mt (connectsOverError_iff hs).mp hok

/-! ### An error with a text and one without -/

/-- A login reply with an error of that value. -/
def errorReply (err : Json) : Json := .object [("id", .number (.posInt 1)), ("error", err)]

/-- The session that reads this line after its login. -/
def errorLoginRun (line : String) : List ClientInput :=
  [.check, .connect (.ok ()), .loginWritten (.ok ()), .read (.line line)]

def messageError : Json := .object [("message", .string "low difficulty")]

def messageLine : String :=
  "\x7b\"id\":1,\"error\":\x7b\"message\":\"low difficulty\"\x7d\x7d"

theorem parse_messageLine :
    readingConfig.parseLine messageLine = .ok (errorReply messageError) := by
  rfl

theorem reply_errors_agree_message :
    (LoginFails (errorReply messageError) ↔ ShareRejected (errorReply messageError)) ∧
      ∃ c tr, Run (clientStep readingConfig)
        (fun c i => ¬ ConnectsOverError readingConfig c i) .start (errorLoginRun messageLine)
        c tr := by
  obtain ⟨hreply, hruns⟩ := reply_errors_agree_iff readingConfig
  have hrenders : ErrorRenders (errorReply messageError) := by
    intro err he _
    cases he
    exact ⟨"low difficulty", rfl⟩
  have hexec : (exec (clientStep readingConfig) .start (errorLoginRun messageLine)).any
      (fun _ => true) = true := by decide +kernel
  have hgood : ∀ (c : Client), ∀ i ∈ errorLoginRun messageLine,
      ¬ ReadsUnrendered readingConfig c i := by
    intro c i hi
    simp only [errorLoginRun, List.mem_cons, List.not_mem_nil, or_false] at hi
    obtain rfl | rfl | rfl | rfl := hi
    · exact id
    · exact id
    · exact id
    · intro hreads
      obtain ⟨_, _, _, _, hl, _, hnot⟩ := hreads
      rw [parse_messageLine] at hl
      cases hl
      exact hnot hrenders
  obtain ⟨c, tr, hrun, -⟩ := run_of_exec_test (p := fun _ _ => true) hexec hgood
  exact ⟨((hreply _ 1 rfl rfl).mpr hrenders).1, c, tr, (hruns _ c tr hrun.any).mpr hrun⟩

def codeError : Json := .object [("code", .number (.negInt (-1)))]

def codeLine : String := "\x7b\"id\":1,\"error\":\x7b\"code\":-1\x7d\x7d"

theorem parse_codeLine : readingConfig.parseLine codeLine = .ok (errorReply codeError) := by rfl

def isConnected (_past : List ClientObs) : ClientObs → Bool
  | .emitted event => event = .connected
  | _ => false

/-- An error with a code alone: the reply would reject a share, and the client reports
itself connected over it. -/
theorem login_over_error :
    readingConfig.parseLine codeLine = .ok (errorReply codeError) ∧
      HasError (errorReply codeError) ∧ ShareRejected (errorReply codeError) ∧
      ¬ LoginFails (errorReply codeError) ∧
      ∃ c tr, Run (clientStep readingConfig) (fun _ _ => True) .start
        (errorLoginRun codeLine ++ [.sendEvent]) c (tr ++ [.emitted .connected]) := by
  refine ⟨parse_codeLine, ⟨codeError, rfl, rfl⟩, ⟨"unknown", rfl⟩, ?_, ?_⟩
  · intro hfails
    obtain ⟨e, hfails⟩ := hfails
    cases hfails
  · have hexec : (exec (clientStep readingConfig) .start
        (errorLoginRun codeLine ++ [.sendEvent])).any
          (fun r => endsWith isConnected r.2) = true := by decide +kernel
    obtain ⟨c, tr, hrun, hends⟩ := anyRun_of_exec_test
      (p := fun _ tr => endsWith isConnected tr) hexec
    obtain ⟨past, o, rfl, ho⟩ := exists_of_endsWith hends
    unfold isConnected at ho
    split at ho
    · obtain rfl := of_decide_eq_true ho
      exact ⟨c, past, hrun⟩
    · cases ho

end LiteXmr.Stratum
