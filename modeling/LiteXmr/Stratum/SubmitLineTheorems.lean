/-
LiteXmr.Stratum.SubmitLineTheorems — what a reader makes of the line
`build_submit` writes.

The line is put together by hand, around a session id and a job id that come
from the pool with their escapes resolved. `submit_round_trip_iff` says for
which of them the line is read back as it was meant: exactly when neither
contains a character that JSON escapes. `doubled_id` is one of the others,
where the pool's session id takes the place of its own value.

The scanner has to be inside a string wherever a member of the template ends
(`exec_member`), so the only tokens that are not fixed are those of the two
ids (`tokens_buildSubmit`). Of an id that is not plain they are shorter than
the id, so it could only be found among the tokens of the other one, and then
each would be shorter than the other.
-/
import LiteXmr.Json.TextTheorems
import LiteXmr.Stratum.Messages

namespace LiteXmr.Stratum

open JsonText Lts

/-! ## The line -/

/-- The message a submission stands for. -/
def submitMessage (sessionId : String) (submission : Submission) (id : UInt64) : Json :=
  .object
    [("id", .number (.posInt id)), ("jsonrpc", .string "2.0"), ("method", .string "submit"),
      ("params", .object
        [("id", .string sessionId), ("job_id", .string submission.jobId),
          ("nonce", .string submission.nonce), ("result", .string submission.result)])]

/-- The line is one line, and it is read as a submit message with the values
it was built from. -/
structure SubmitRoundTrip (sessionId : String) (submission : Submission) (id : UInt64) :
    Prop where
  oneLine : ∃ body, buildSubmit sessionId submission id = body ++ "\n" ∧ '\n' ∉ body.toList
  parsed : ∃ msg, JsonText.read (buildSubmit sessionId submission id) = some msg ∧
    msg.get "id" = some (.number (.posInt id)) ∧ msg.get "method" = some (.string "submit") ∧
    msg.get "params" = some (.object
      [("id", .string sessionId), ("job_id", .string submission.jobId),
        ("nonce", .string submission.nonce), ("result", .string submission.result)])

/-- The line up to the session id. -/
def submitHead (id : UInt64) : List Char :=
  "\x7b\"id\":".toList ++ (Nat.toDigits 10 id.toNat ++
    ",\"jsonrpc\":\"2.0\",\"method\":\"submit\",\"params\":\x7b\"id\":\"".toList)

def submitHeadTokens (id : UInt64) : List Token :=
  [.lbrace, .string "id".toList, .colon, .scalar (.number (.posInt id)), .comma,
    .string "jsonrpc".toList, .colon, .string "2.0".toList, .comma,
    .string "method".toList, .colon, .string "submit".toList, .comma,
    .string "params".toList, .colon, .lbrace, .string "id".toList, .colon]

section

variable {sessionId : String} {submission : Submission} {id : UInt64}

theorem toList_buildSubmit :
    (buildSubmit sessionId submission id).toList
      = submitHead id ++ (sessionId.toList ++ (nextMember "job_id".toList ++
          (submission.jobId.toList ++ (nextMember "nonce".toList ++
            (submission.nonce.toList ++ (nextMember "result".toList ++
              (submission.result.toList ++ "\"\x7d\x7d\n".toList))))))) := by
  have hid : (toString id.toNat).toList = Nat.toDigits 10 id.toNat := String.toList_ofList ..
  have hjob : "\",\"job_id\":\"".toList = nextMember "job_id".toList := rfl
  have hnonce : "\",\"nonce\":\"".toList = nextMember "nonce".toList := rfl
  have hresult : "\",\"result\":\"".toList = nextMember "result".toList := rfl
  delta buildSubmit submitHead
  simp only [String.toList_append, hid, hjob, hnonce, hresult, List.append_assoc]

theorem exec_submitHead (id : UInt64) :
    exec scanStep .between (submitHead id) = some (.string [], submitHeadTokens id) := by
  have hopen : exec scanStep .between "\x7b\"id\":".toList
      = some (.between, [.lbrace, .string "id".toList, .colon]) := rfl
  have hdigits : exec scanStep .between (Nat.toDigits 10 id.toNat)
      = some (.word (Nat.toDigits 10 id.toNat), []) :=
    exec_between_word Nat.toDigits_ne_nil fun c hc =>
      isWordChar_of_isDigit (Nat.isDigit_of_mem_toDigits (by omega) (by omega) hc)
  have hcomma : exec scanStep (.word (Nat.toDigits 10 id.toNat)) [',']
      = some (.between, [.scalar (.number (.posInt id)), .comma]) := by
    rw [exec, show scanStep (.word (Nat.toDigits 10 id.toNat)) ','
      = some (.between, [.scalar (.number (.posInt id)), .comma]) by
        rw [scanStep, scalar_toDigits]
        rfl]
    rfl
  have hrest : exec scanStep .between
      "\"jsonrpc\":\"2.0\",\"method\":\"submit\",\"params\":\x7b\"id\":\"".toList
        = some (.string [], (submitHeadTokens id).drop 5) := rfl
  exact exec_append_of_some hopen
    (exec_append_of_some hdigits (exec_append_of_some hcomma hrest))

theorem plain_of_isHex {s : String} (h : Base16.IsHex s) : Plain s.toList := by
  intro c hc
  have hsome := h c hc
  refine ⟨?_, ?_, ?_⟩
  · rintro rfl
    exact absurd hsome (by decide)
  · rintro rfl
    exact absurd hsome (by decide)
  · have hdigits : ∀ d : Char, 0x20 ≤ d.toNat → d ≤ c → 0x20 ≤ c.toNat := by
      intro d hd hle
      exact hd.trans (UInt32.le_iff_toNat_le.mp hle)
    unfold Base16.value at hsome
    split at hsome
    · next h0 => exact hdigits '0' (by decide) h0.1
    · split at hsome
      · next ha => exact hdigits 'a' (by decide) ha.1
      · split at hsome
        · next hA => exact hdigits 'A' (by decide) hA.1
        · cases hsome

/-- The tokens after the job id. -/
def submitTailTokens (submission : Submission) : List Token :=
  [.comma, .string "nonce".toList, .colon, .string submission.nonce.toList, .comma,
    .string "result".toList, .colon, .string submission.result.toList, .rbrace, .rbrace]

theorem exec_submitTail (hnonce : Base16.IsHex submission.nonce)
    (hresult : Base16.IsHex submission.result) (acc : List Char) :
    exec scanStep (.string acc) (nextMember "nonce".toList ++ (submission.nonce.toList ++
        (nextMember "result".toList ++ (submission.result.toList ++ "\"\x7d\x7d\n".toList))))
      = some (.between, .string acc :: submitTailTokens submission) := by
  have hend : exec scanStep (.string submission.result.toList) "\"\x7d\x7d\n".toList
      = some (.between, [.string submission.result.toList, .rbrace, .rbrace]) := rfl
  have hresults := exec_append_of_some (exec_string (plain_of_isHex hresult) []) hend
  have hmember := exec_append_of_some
    (exec_member_of_string (show Plain "result".toList by decide) submission.nonce.toList) hresults
  have hnonces := exec_append_of_some (exec_string (plain_of_isHex hnonce) []) hmember
  exact exec_append_of_some
    (exec_member_of_string (show Plain "nonce".toList by decide) acc) hnonces

/-- The members of the template are read as such, whatever the ids are. -/
theorem tokens_buildSubmit (id : UInt64) (hnonce : Base16.IsHex submission.nonce)
    (hresult : Base16.IsHex submission.result) {ts : List Token} :
    tokens (buildSubmit sessionId submission id).toList = some ts ↔
      ∃ sid sidTokens job jobTokens,
        exec scanStep (.string []) sessionId.toList = some (.string sid, sidTokens) ∧
        exec scanStep (.string []) submission.jobId.toList = some (.string job, jobTokens) ∧
        ts = submitHeadTokens id ++ (sidTokens ++ (.string sid :: .comma ::
          .string "job_id".toList :: .colon :: (jobTokens ++ (.string job ::
            submitTailTokens submission)))) := by
  rw [toList_buildSubmit]
  constructor
  · intro h
    obtain ⟨scan, ts₁, scan', ts₂, last, hhead, hids, hlast, rfl⟩ := tokens_append_eq_some h
    rw [exec_submitHead] at hhead
    cases hhead
    obtain ⟨scan₁, sidTokens, ts₃, hsid, hrest, rfl⟩ := exec_append_eq_some hids
    obtain ⟨scan₂, memberTokens, ts₄, hmember, hjobs, rfl⟩ := exec_append_eq_some hrest
    obtain ⟨sid, rfl, rfl, rfl⟩ :=
      exec_member (by decide) (by decide) (List.all_eq_true.mp (by rfl)) rfl hmember
    obtain ⟨scan₃, jobTokens, ts₅, hjob, htail, rfl⟩ := exec_append_eq_some hjobs
    have hnext : ∃ job, scan₃ = .string job := by
      obtain ⟨scan₄, memberTokens, ts₆, hmember, -, -⟩ := exec_append_eq_some htail
      obtain ⟨job, hjob, -, -⟩ :=
        exec_member (by decide) (by decide) (List.all_eq_true.mp (by rfl)) rfl hmember
      exact ⟨job, hjob⟩
    obtain ⟨job, rfl⟩ := hnext
    rw [exec_submitTail hnonce hresult] at htail
    cases htail
    cases hlast
    exact ⟨sid, sidTokens, job, jobTokens, hsid, hjob, by simp⟩
  · intro h
    obtain ⟨sid, sidTokens, job, jobTokens, hsid, hjob, rfl⟩ := h
    have htail := exec_append_of_some hjob (exec_submitTail hnonce hresult job)
    have hmember := exec_append_of_some
      (exec_member_of_string (show Plain "job_id".toList by decide) sid) htail
    have hline := exec_append_of_some (exec_submitHead id) (exec_append_of_some hsid hmember)
    rw [tokens, hline]
    simp [scanEnd]

theorem readTokens_submit :
    readTokens (submitHeadTokens id ++ (.string sessionId.toList :: .comma ::
        .string "job_id".toList :: .colon :: (.string submission.jobId.toList ::
          submitTailTokens submission)))
      = some (submitMessage sessionId submission id) := by
  have htokens : submitHeadTokens id ++ (.string sessionId.toList :: .comma ::
        .string "job_id".toList :: .colon :: (.string submission.jobId.toList ::
          submitTailTokens submission))
      = .lbrace :: .string "id".toList :: .colon :: .scalar (.number (.posInt id)) :: .comma ::
        .string "jsonrpc".toList :: .colon :: .string "2.0".toList :: .comma ::
        .string "method".toList :: .colon :: .string "submit".toList :: .comma ::
        .string "params".toList :: .colon :: .lbrace ::
        .string "id".toList :: .colon :: .string sessionId.toList :: .comma ::
        .string "job_id".toList :: .colon :: .string submission.jobId.toList :: .comma ::
        .string "nonce".toList :: .colon :: .string submission.nonce.toList :: .comma ::
        .string "result".toList :: .colon :: .string submission.result.toList :: .rbrace ::
        .rbrace :: [] := rfl
  rw [readTokens, htokens, read_lbrace, read_scalarMember, read_comma, read_stringMember,
    read_comma, read_stringMember, read_comma, read_objectMember, read_stringMember, read_comma,
    read_stringMember, read_comma, read_stringMember, read_comma, read_stringMember,
    read_rbrace, read_rbrace]
  simp [setField, submitMessage]

/-! ## Round trip -/

theorem read_buildSubmit (hnonce : Base16.IsHex submission.nonce)
    (hresult : Base16.IsHex submission.result) (hsid : Plain sessionId.toList)
    (hjob : Plain submission.jobId.toList) :
    JsonText.read (buildSubmit sessionId submission id)
      = some (submitMessage sessionId submission id) := by
  have htokens := (tokens_buildSubmit id hnonce hresult).mpr
    ⟨_, _, _, _, exec_string hsid [], exec_string hjob [], rfl⟩
  rw [JsonText.read, htokens]
  exact readTokens_submit

theorem newline_not_mem_of_plain {cs : List Char} (h : Plain cs) : '\n' ∉ cs :=
  fun hmem => absurd (h _ hmem).2.2 (by decide)

theorem newline_not_mem_submitHead (id : UInt64) : '\n' ∉ submitHead id := by
  intro h
  rcases List.mem_append.mp h with h | h
  · exact absurd h (by decide)
  · rcases List.mem_append.mp h with h | h
    · have hdigit := Nat.isDigit_of_mem_toDigits (by omega) (by omega) h
      exact absurd hdigit (by decide)
    · exact absurd h (by decide)

theorem buildSubmit_oneLine (id : UInt64) (hnonce : Base16.IsHex submission.nonce)
    (hresult : Base16.IsHex submission.result) (hsid : Plain sessionId.toList)
    (hjob : Plain submission.jobId.toList) :
    ∃ body, buildSubmit sessionId submission id = body ++ "\n" ∧ '\n' ∉ body.toList := by
  let body := submitHead id ++ (sessionId.toList ++ (nextMember "job_id".toList ++
    (submission.jobId.toList ++ (nextMember "nonce".toList ++
      (submission.nonce.toList ++ (nextMember "result".toList ++
        (submission.result.toList ++ "\"\x7d\x7d".toList)))))))
  have hend : "\"\x7d\x7d\n".toList = "\"\x7d\x7d".toList ++ "\n".toList := rfl
  have hbody : (String.ofList body).toList = body := String.toList_ofList ..
  refine ⟨String.ofList body, ?_, ?_⟩
  · apply String.toList_injective
    rw [toList_buildSubmit, String.toList_append, hbody, hend]
    simp only [body, List.append_assoc]
  · rw [hbody]
    simp only [body, List.mem_append, not_or]
    exact ⟨newline_not_mem_submitHead id, newline_not_mem_of_plain hsid, by decide,
      newline_not_mem_of_plain hjob, by decide, newline_not_mem_of_plain (plain_of_isHex hnonce),
      by decide, newline_not_mem_of_plain (plain_of_isHex hresult), by decide⟩

theorem plain_of_mem_submitHeadTokens {ds : List Char} (h : .string ds ∈ submitHeadTokens id) :
    Plain ds := by
  delta submitHeadTokens at h
  simp only [List.mem_cons, Token.string.injEq, reduceCtorEq, false_or, List.not_mem_nil,
    or_false] at h
  rcases h with rfl | rfl | rfl | rfl | rfl | rfl | rfl <;> decide

theorem plain_of_mem_submitTailTokens (hnonce : Base16.IsHex submission.nonce)
    (hresult : Base16.IsHex submission.result) {ds : List Char}
    (h : .string ds ∈ submitTailTokens submission) : Plain ds := by
  delta submitTailTokens at h
  simp only [List.mem_cons, Token.string.injEq, reduceCtorEq, false_or, List.not_mem_nil,
    or_false] at h
  rcases h with rfl | rfl | rfl | rfl
  · decide
  · exact plain_of_isHex hnonce
  · decide
  · exact plain_of_isHex hresult

/-- A string that an id which is not plain contributes is shorter than the id;
a plain id contributes itself. -/
theorem length_lt_of_idToken {cs acc ds : List Char} {ts : List Token}
    (h : exec scanStep (.string []) cs = some (.string acc, ts))
    (hmem : .string ds ∈ ts ∨ ds = acc) (hds : ¬ Plain ds) :
    ¬ Plain cs ∧ ds.length < cs.length := by
  have hrun : Run scanStep (fun _ _ => True) (.string []) cs (.string acc) ts :=
    run_of_exec h fun _ _ _ => trivial
  rcases region_of_run hrun with ⟨hplain, hacc, rfl⟩ | ⟨hplain, hpending, hts⟩
  · cases hacc
    rcases hmem with hmem | rfl
    · cases hmem
    · exact absurd hplain hds
  · refine ⟨hplain, ?_⟩
    rcases hmem with hmem | rfl
    · exact hts ds hmem
    · exact hpending

/-- Every string of the line that is not plain comes from one of the ids, and
is shorter. -/
theorem length_lt_of_submitToken (hnonce : Base16.IsHex submission.nonce)
    (hresult : Base16.IsHex submission.result) {ts : List Token}
    (hts : tokens (buildSubmit sessionId submission id).toList = some ts) {ds : List Char}
    (hmem : .string ds ∈ ts) (hds : ¬ Plain ds) :
    (¬ Plain sessionId.toList ∧ ds.length < sessionId.toList.length) ∨
      (¬ Plain submission.jobId.toList ∧ ds.length < submission.jobId.toList.length) := by
  obtain ⟨sid, sidTokens, job, jobTokens, hsid, hjob, rfl⟩ :=
    (tokens_buildSubmit id hnonce hresult).mp hts
  simp only [List.mem_append, List.mem_cons, Token.string.injEq, reduceCtorEq, false_or] at hmem
  rcases hmem with hhead | hsidToken | rfl | rfl | hjobToken | rfl | htail
  · exact absurd (plain_of_mem_submitHeadTokens hhead) hds
  · exact Or.inl (length_lt_of_idToken hsid (Or.inl hsidToken) hds)
  · exact Or.inl (length_lt_of_idToken hsid (Or.inr rfl) hds)
  · exact absurd (by decide) hds
  · exact Or.inr (length_lt_of_idToken hjob (Or.inl hjobToken) hds)
  · exact Or.inr (length_lt_of_idToken hjob (Or.inr rfl) hds)
  · exact absurd (plain_of_mem_submitTailTokens hnonce hresult htail) hds

theorem plain_of_submitRoundTrip (hnonce : Base16.IsHex submission.nonce)
    (hresult : Base16.IsHex submission.result) (h : SubmitRoundTrip sessionId submission id) :
    Plain sessionId.toList ∧ Plain submission.jobId.toList := by
  obtain ⟨msg, hread, -, -, hparams⟩ := h.parsed
  obtain ⟨ts, hts, hmsg⟩ := Option.bind_eq_some_iff.mp hread
  have hsid : .string sessionId.toList ∈ ts := by
    refine mem_tokens_of_read hts hmsg (.of_get hparams ?_)
    exact .object (List.mem_cons_self ..) (.string sessionId)
  have hjob : .string submission.jobId.toList ∈ ts := by
    refine mem_tokens_of_read hts hmsg (.of_get hparams ?_)
    exact .object (List.mem_cons_of_mem _ (List.mem_cons_self ..)) (.string submission.jobId)
  have hsidLt := length_lt_of_submitToken hnonce hresult hts hsid
  have hjobLt := length_lt_of_submitToken hnonce hresult hts hjob
  by_cases hs : Plain sessionId.toList
  · refine ⟨hs, ?_⟩
    by_contra hj
    rcases hjobLt hj with ⟨hs', -⟩ | ⟨-, hlt⟩
    · exact hs' hs
    · exact absurd hlt (Nat.lt_irrefl _)
  · -- neither is plain, and each is shorter than the other
    rcases hsidLt hs with ⟨-, hlt⟩ | ⟨hj, hlt⟩
    · exact absurd hlt (Nat.lt_irrefl _)
    · rcases hjobLt hj with ⟨-, hlt'⟩ | ⟨-, hlt'⟩
      · exact absurd (hlt.trans hlt') (Nat.lt_irrefl _)
      · exact absurd hlt' (Nat.lt_irrefl _)

end

/-- The line is read back as it was meant exactly when neither id contains a
character that JSON escapes. -/
theorem submit_round_trip_iff (sessionId : String) (submission : Submission) (id : UInt64)
    (hnonce : Base16.IsHex submission.nonce) (hresult : Base16.IsHex submission.result) :
    SubmitRoundTrip sessionId submission id ↔
      Plain sessionId.toList ∧ Plain submission.jobId.toList := by
  constructor
  · intro hround
    exact plain_of_submitRoundTrip hnonce hresult hround
  · intro hplain
    obtain ⟨hsid, hjob⟩ := hplain
    exact
      { oneLine := buildSubmit_oneLine id hnonce hresult hsid hjob
        parsed := ⟨_, read_buildSubmit hnonce hresult hsid hjob, rfl, rfl, rfl⟩ }

def plainSubmission : Submission := { jobId := "4BiGm3", nonce := "2a000000", result := "e1364b" }

theorem submit_round_trip_plain : SubmitRoundTrip "bfc2b0" plainSubmission 3 :=
  (submit_round_trip_iff "bfc2b0" plainSubmission 3 (by decide) (by decide)).mpr
    ⟨by decide, by decide⟩

/-- A session id with quotes in it ends its own value and gives another. -/
theorem doubled_id :
    ¬ SubmitRoundTrip "x\",\"id\":\"y" plainSubmission 3 ∧
      (((JsonText.read (buildSubmit "x\",\"id\":\"y" plainSubmission 3)).bind
        (·.get "params")).bind (·.get "id")).bind Json.asStr = some "y" := by
  refine ⟨fun h => ?_, by decide +kernel⟩
  have hplain := plain_of_submitRoundTrip (by decide) (by decide) h
  exact absurd hplain.1 (by decide)

end LiteXmr.Stratum
