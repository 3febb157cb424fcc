/-
LiteXmr.Doh.ResponseTheorems — the reader of DNS answers on every byte string.

The code walks over the data with a position that may run past the end. What it
computes is a function of the bytes that are left (`nameSize`, `questionsRest`,
`answersOf`, `addressesOf`), and `parseDnsResponse_eq` says so: every checked read
is in range and every name ends, whatever the bytes are. The two safety results
are then about lists.

* `hostile_response_safe` — the reader ends, never indexes outside the data, and
  returns no more addresses than the header announces, each of them a slice of
  the data.
* `truncated_response_prefix` — on the first bytes of the data it returns the
  first addresses of the whole. A name in a cut response either ends where it
  ends in the whole or beyond the cut (`nameSize_take`).
-/
import LiteXmr.Doh.Response

namespace LiteXmr

open Checked

/-! ## Names -/

/-- How many bytes a name takes at the head of the bytes that are left. -/
def nameSize : Bytes → Nat
  | [] => 1
  | b :: rest =>
      if b = 0 then 1
      else if b &&& 0xC0 = 0xC0 then 2
      else b.toNat + 1 + nameSize (rest.drop b.toNat)
termination_by bytes => bytes.length
decreasing_by
  rw [List.length_drop, List.length_cons]
  omega

@[simp] theorem nameSize_nil : nameSize [] = 1 := by rw [nameSize]

theorem nameSize_zero (rest : Bytes) : nameSize (0 :: rest) = 1 := by
  rw [nameSize, if_pos rfl]

theorem nameSize_pointer {b : UInt8} {rest : Bytes} (h : b &&& 0xC0 = 0xC0) :
    nameSize (b :: rest) = 2 := by
  have hne : b ≠ 0 := by
    rintro rfl
    exact absurd h (by decide)
  rw [nameSize, if_neg hne, if_pos h]

theorem nameSize_label {b : UInt8} {rest : Bytes} (hne : b ≠ 0) (h : b &&& 0xC0 ≠ 0xC0) :
    nameSize (b :: rest) = b.toNat + 1 + nameSize (rest.drop b.toNat) := by
  rw [nameSize, if_neg hne, if_neg h]

/-- Only a pointer has both of its highest bits set. -/
theorem toNat_lt_of_and_ne {b : UInt8} (h : b &&& 0xC0 ≠ 0xC0) : b.toNat < 192 := by
  have hpointers : ∀ low : Fin 64, UInt8.ofNat (192 + low.val) &&& 0xC0 = 0xC0 := by decide
  have hb := b.toNat_lt
  by_contra hge
  have hback : UInt8.ofNat (192 + (b.toNat - 192)) = b := by
    rw [Nat.add_sub_cancel' (by omega), UInt8.ofNat_toNat]
  have hpointer := hpointers ⟨b.toNat - 192, by omega⟩
  rw [hback] at hpointer
  exact h hpointer

theorem nameSize_pos (bytes : Bytes) : 0 < nameSize bytes := by
  fun_induction nameSize bytes <;> omega

theorem nameSize_le (bytes : Bytes) : nameSize bytes ≤ bytes.length + 192 := by
  fun_induction nameSize bytes with
  | case1 => decide
  | case2 rest => omega
  | case3 b rest _ _ => rw [List.length_cons]; omega
  | case4 b rest _ hb ih =>
      have hlt := toNat_lt_of_and_ne hb
      rw [List.length_cons]
      by_cases hin : b.toNat < rest.length
      · rw [List.length_drop] at ih
        omega
      · -- the label reaches past the end, where a name takes one more byte
        rw [List.drop_eq_nil_of_le (by omega), nameSize_nil]
        omega

/-- In a cut string a name ends where it does in the whole, or past the cut. -/
theorem nameSize_take (n : Nat) (bytes : Bytes) :
    nameSize (bytes.take n) = nameSize bytes ∨ n < nameSize (bytes.take n) := by
  fun_induction nameSize bytes generalizing n with
  | case1 => exact Or.inl (by rw [List.take_nil, nameSize_nil])
  | case2 rest =>
      cases n with
      | zero => exact Or.inr (nameSize_pos _)
      | succ n => exact Or.inl (by rw [List.take_succ_cons, nameSize_zero])
  | case3 b rest _ hb =>
      cases n with
      | zero => exact Or.inr (nameSize_pos _)
      | succ n => exact Or.inl (by rw [List.take_succ_cons, nameSize_pointer hb])
  | case4 b rest hne hb ih =>
      cases n with
      | zero => exact Or.inr (nameSize_pos _)
      | succ n =>
          rw [List.take_succ_cons, nameSize_label hne hb, List.drop_take]
          obtain hsame | hpast := ih (n - b.toNat)
          · exact Or.inl (by rw [hsame])
          · exact Or.inr (by omega)

/-- The position after the name, for every position. -/
def nameEnd (data : Bytes) (pos : Nat) : Nat := pos + nameSize (data.drop pos)

theorem getElem?_of_drop {data rest : Bytes} {pos : Nat} {b : UInt8}
    (h : data.drop pos = b :: rest) : data[pos]? = some b ∧ pos < data.length := by
  have hget : data[pos]? = some b := by
    rw [← Nat.add_zero pos, ← List.getElem?_drop, h]
    rfl
  exact ⟨hget, (List.getElem?_eq_some_iff.mp hget).1⟩

theorem drop_of_drop_cons {data rest : Bytes} {pos : Nat} {b : UInt8}
    (h : data.drop pos = b :: rest) (n : Nat) : data.drop (pos + (n + 1)) = rest.drop n := by
  rw [← List.drop_drop, h, List.drop_succ_cons]

theorem skipNameRound_eq (data : Bytes) (pos : Nat) :
    skipNameRound data pos = .returned (.stop (nameEnd data pos)) ∨
      ∃ pos', skipNameRound data pos = .returned (.next pos') ∧
        data.length - pos' < data.length - pos ∧ nameEnd data pos' = nameEnd data pos := by
  rw [skipNameRound, nameEnd]
  cases hrest : data.drop pos with
  | nil =>
      rw [if_pos (List.drop_eq_nil_iff.mp hrest), nameSize_nil]
      exact Or.inl rfl
  | cons b rest =>
      obtain ⟨hget, hpos⟩ := getElem?_of_drop hrest
      rw [if_neg (by omega), index_eq hget]
      simp only [returned_bind, pure_eq]
      by_cases hzero : b = 0
      · rw [if_pos hzero, hzero, nameSize_zero]
        exact Or.inl rfl
      by_cases hpointer : b &&& 0xC0 = 0xC0
      · rw [if_neg hzero, if_pos hpointer, nameSize_pointer hpointer]
        exact Or.inl rfl
      rw [if_neg hzero, if_neg hpointer, nameSize_label hzero hpointer]
      refine Or.inr ⟨pos + (b.toNat + 1), rfl, by omega, ?_⟩
      rw [nameEnd, drop_of_drop_cons hrest]
      omega

theorem skipName_eq (data : Bytes) (pos : Nat) {fuel : Nat} (h : data.length < fuel) :
    skipName data fuel pos = .returned (nameEnd data pos) :=
  loop_eq (nameEnd data) (fun pos => data.length - pos) (skipNameRound_eq data) fuel pos (by omega)

/-! ## Questions and answers -/

/-- A big-endian field of two bytes. -/
def u16At (bytes : Bytes) (k : Nat) : UInt16 :=
  u16FromBeBytes (bytes.getD k 0) (bytes.getD (k + 1) 0)

/-- What is left after the name at the head. -/
def afterName (bytes : Bytes) : Bytes := bytes.drop (nameSize bytes)

/-- What is left after `n` questions, unless the bytes run out. -/
def questionsRest : Nat → Bytes → Option Bytes
  | 0, bytes => some bytes
  | n + 1, bytes =>
      if (afterName bytes).length < 4 then none
      else questionsRest n ((afterName bytes).drop 4)

/-- The address that a record type and an RDATA stand for. -/
def addressOf (atype : UInt16) (rdata : Bytes) : Option SocketAddr :=
  if h : atype = 1 ∧ rdata.length = 4 then some ⟨.v4 ⟨rdata, h.2⟩, 0⟩
  else if h : atype = 28 ∧ rdata.length = 16 then some ⟨.v6 ⟨rdata, h.2⟩, 0⟩
  else none

/-- The addresses in the first `n` records. The check of the code before the name
is not needed: after the name there is less. -/
def answersOf : Nat → Bytes → List SocketAddr
  | 0, _ => []
  | n + 1, bytes =>
      let fixed := afterName bytes
      let rdlength := (u16At fixed 8).toNat
      if fixed.length < 10 + rdlength then []
      else (addressOf (u16At fixed 0) (Bytes.window fixed 10 rdlength)).toList
        ++ answersOf n (fixed.drop (10 + rdlength))

/-- The counts in the header. -/
def qdcount (data : Bytes) : Nat := (u16At data 4).toNat

def ancount (data : Bytes) : Nat := (u16At data 6).toNat

/-- The addresses of a response. -/
def addressesOf (data : Bytes) : List SocketAddr :=
  if data.length < 12 then []
  else match questionsRest (qdcount data) (data.drop 12) with
    | none => []
    | some rest => answersOf (ancount data) rest

/-! ## The code computes it -/

theorem index_drop (data : Bytes) {pos k : Nat} (h : pos + k < data.length) :
    index data (pos + k) = .returned ((data.drop pos).getD k 0) := by
  rw [List.getD_eq_getElem?_getD, List.getElem?_drop, List.getElem?_eq_getElem h]
  exact index_eq (List.getElem?_eq_getElem h)

theorem drop_nameEnd (data : Bytes) (pos : Nat) :
    data.drop (nameEnd data pos) = afterName (data.drop pos) := by
  rw [nameEnd, afterName, List.drop_drop]

theorem length_afterName (data : Bytes) (pos : Nat) :
    (afterName (data.drop pos)).length = data.length - nameEnd data pos := by
  rw [← drop_nameEnd, List.length_drop]

theorem times_questionRound (data : Bytes) {fuel : Nat} (hfuel : data.length < fuel) :
    ∀ n pos, times (questionRound data fuel) n pos = .returned (.stop []) ∧
        questionsRest n (data.drop pos) = none ∨
      ∃ pos', times (questionRound data fuel) n pos = .returned (.next pos') ∧
        questionsRest n (data.drop pos) = some (data.drop pos') := by
  intro n
  induction n with
  | zero => exact fun pos => Or.inr ⟨pos, rfl, rfl⟩
  | succ n ih =>
      intro pos
      have hlen := length_afterName data pos
      have hpos : 0 < nameEnd data pos := Nat.add_pos_right pos (nameSize_pos _)
      rw [questionsRest]
      by_cases hshort : data.length < nameEnd data pos + 4
      · rw [if_pos (by omega)]
        refine Or.inl ⟨times_stop ?_, rfl⟩
        rw [questionRound, skipName_eq data pos hfuel, returned_bind, if_pos hshort]
        rfl
      · have hround : questionRound data fuel pos = .returned (.next (nameEnd data pos + 4)) := by
          rw [questionRound, skipName_eq data pos hfuel, returned_bind, if_neg hshort]
          rfl
        rw [if_neg (by omega), times_next hround, ← drop_nameEnd, List.drop_drop]
        exact ih _

theorem recordAddress_eq (data : Bytes) (atype : UInt16) {rdlength pos : Nat}
    (h : pos + rdlength ≤ data.length) :
    recordAddress data atype rdlength pos
      = .returned (addressOf atype (Bytes.window data pos rdlength)).toList := by
  have hlen := Bytes.length_window h
  rw [recordAddress, addressOf]
  simp only [hlen]
  by_cases hfour : atype = 1 ∧ rdlength = 4
  · rw [if_pos hfour, dif_pos hfour]
    obtain ⟨_, rfl⟩ := hfour
    obtain ⟨a, b, c, d, hoctets⟩ := List.length_eq_four.mp hlen
    have hget : ∀ k < 4, data[pos + k]? = [a, b, c, d][k]? := by
      intro k hk
      rw [← hoctets, Bytes.getElem?_window data hk]
    rw [show index data pos = .returned a from index_eq (hget 0 (by decide)),
      index_eq (hget 1 (by decide)), index_eq (hget 2 (by decide)), index_eq (hget 3 (by decide))]
    simp only [returned_bind, pure_eq, ipv4New, hoctets, Option.toList_some]
  rw [if_neg hfour, dif_neg hfour]
  by_cases hsixteen : atype = 28 ∧ rdlength = 16
  · rw [if_pos hsixteen, dif_pos hsixteen]
    obtain ⟨_, rfl⟩ := hsixteen
    rw [slice_eq h, returned_bind, copyFromSlice_eq hlen]
    rfl
  · rw [if_neg hsixteen, dif_neg hsixteen]
    rfl

theorem answerRound_eq (data : Bytes) {fuel : Nat} (hfuel : data.length < fuel) (pos : Nat)
    (results : List SocketAddr) :
    answerRound data fuel (pos, results) =
      let fixed := afterName (data.drop pos)
      let rdlength := (u16At fixed 8).toNat
      if fixed.length < 10 + rdlength then .returned (.stop results)
      else .returned (.next (nameEnd data pos + (10 + rdlength),
        results ++ (addressOf (u16At fixed 0) (Bytes.window fixed 10 rdlength)).toList)) := by
  have hlen := length_afterName data pos
  have hpos : pos ≤ nameEnd data pos := Nat.le_add_right _ _
  simp only [answerRound]
  by_cases hbefore : data.length < pos + 10
  · rw [if_pos hbefore, if_pos (by omega)]
    rfl
  rw [if_neg hbefore, skipName_eq data pos hfuel, returned_bind]
  by_cases hfixed : data.length < nameEnd data pos + 10
  · rw [if_pos hfixed, if_pos (by omega)]
    rfl
  have hread : ∀ k < 10, index data (nameEnd data pos + k)
      = .returned ((afterName (data.drop pos)).getD k 0) := by
    intro k hk
    rw [← drop_nameEnd]
    exact index_drop data (by omega)
  have hfield : ∀ (bytes : Bytes) (k : Nat),
      u16FromBeBytes (bytes.getD k 0) (bytes.getD (k + 1) 0) = u16At bytes k := fun _ _ => rfl
  rw [if_neg hfixed, show index data (nameEnd data pos) = _ from hread 0 (by decide),
    hread 1 (by decide), hread 8 (by decide), hread 9 (by decide)]
  simp only [returned_bind, hfield _ 0, hfield _ 8]
  by_cases hrdata : data.length
      < nameEnd data pos + 10 + (u16At (afterName (data.drop pos)) 8).toNat
  · rw [if_pos hrdata, if_pos (by omega)]
    rfl
  rw [if_neg hrdata, if_neg (by omega), recordAddress_eq data _ (by omega), returned_bind]
  have hwindow : Bytes.window (afterName (data.drop pos)) 10
      = Bytes.window data (nameEnd data pos + 10) := by
    funext n
    rw [Bytes.window, Bytes.window, ← drop_nameEnd, List.drop_drop]
  rw [hwindow, Nat.add_assoc]
  rfl

/-- The loop over the answers ends with all addresses, whichever way it ends. -/
theorem times_answerRound (data : Bytes) {fuel : Nat} (hfuel : data.length < fuel) :
    ∀ n pos results,
      times (answerRound data fuel) n (pos, results)
          = .returned (.stop (results ++ answersOf n (data.drop pos))) ∨
        ∃ pos', times (answerRound data fuel) n (pos, results)
          = .returned (.next (pos', results ++ answersOf n (data.drop pos))) := by
  intro n
  induction n with
  | zero =>
      intro pos results
      exact Or.inr ⟨pos, by rw [times_zero, answersOf, List.append_nil]⟩
  | succ n ih =>
      intro pos results
      have hround := answerRound_eq data hfuel pos results
      rw [answersOf]
      simp only at hround ⊢
      by_cases hshort : (afterName (data.drop pos)).length
          < 10 + (u16At (afterName (data.drop pos)) 8).toNat
      · rw [if_pos hshort] at hround
        rw [if_pos hshort, times_stop hround, List.append_nil]
        exact Or.inl rfl
      · rw [if_neg hshort] at hround
        rw [if_neg hshort, times_next hround, ← List.append_assoc, ← drop_nameEnd, List.drop_drop]
        exact ih _ _

/-- The reader returns the addresses of the response, for every byte string. -/
theorem parseDnsResponse_eq (data : Bytes) {fuel : Nat} (hfuel : data.length < fuel) :
    parseDnsResponse fuel data = .returned (addressesOf data) := by
  rw [parseDnsResponse, addressesOf]
  by_cases hshort : data.length < 12
  · rw [if_pos hshort, if_pos hshort]
    rfl
  have hread : ∀ k < 12, index data k = .returned (data.getD k 0) := by
    intro k hk
    have hget := index_drop data (show 0 + k < data.length by omega)
    rwa [Nat.zero_add] at hget
  rw [if_neg hshort, if_neg hshort, hread 4 (by decide), hread 5 (by decide),
    hread 6 (by decide), hread 7 (by decide)]
  simp only [returned_bind]
  change (times (questionRound data fuel) (qdcount data) 12 >>= _) = _
  obtain ⟨hquestions, hrest⟩ | ⟨pos, hquestions, hrest⟩ :=
    times_questionRound data hfuel (qdcount data) 12
  · rw [hquestions, hrest]
    rfl
  · rw [hquestions, hrest, returned_bind]
    change (times (answerRound data fuel) (ancount data) (pos, []) >>= _) = _
    obtain hanswers | ⟨_, hanswers⟩ := times_answerRound data hfuel (ancount data) pos []
    · rw [hanswers]
      rfl
    · rw [hanswers]
      rfl

-- a question, an alias and the address behind it
example : parseDnsResponse 8
    ([0x12, 0x34, 0x81, 0x80, 0, 1, 0, 2, 0, 0, 0, 0] ++ [1, 97, 0, 0, 1, 0, 1]
      ++ [0xC0, 12, 0, 5, 0, 1, 0, 0, 0, 60, 0, 4, 1, 98, 0xC0, 12]
      ++ [0xC0, 31, 0, 1, 0, 1, 0, 0, 0, 60, 0, 4, 93, 184, 216, 34])
    = .returned [⟨ipv4New 93 184 216 34, 0⟩] := by decide

theorem returns_addressesOf (data : Bytes) :
    Returns (fun fuel => parseDnsResponse fuel data) (addressesOf data) :=
  ⟨data.length + 1, fun _ hfuel => parseDnsResponse_eq data hfuel⟩

theorem returns_nameEnd (data : Bytes) (pos : Nat) :
    Returns (fun fuel => skipName data fuel pos) (nameEnd data pos) :=
  ⟨data.length + 1, fun _ hfuel => skipName_eq data pos hfuel⟩

/-! ## Safety on every byte string -/

/-- The octets of an address. -/
def IpAddr.octets : IpAddr → Bytes
  | .v4 octets => octets.val
  | .v6 octets => octets.val

theorem octets_of_addressOf {atype : UInt16} {rdata : Bytes} {a : SocketAddr}
    (h : addressOf atype rdata = some a) : a.ip.octets = rdata := by
  unfold addressOf at h
  split at h
  · cases h
    rfl
  · split at h
    · cases h
      rfl
    · cases h

theorem length_answersOf_le (n : Nat) (bytes : Bytes) : (answersOf n bytes).length ≤ n := by
  induction n generalizing bytes with
  | zero => exact Nat.le_refl 0
  | succ n ih =>
      rw [answersOf]
      split
      · exact Nat.zero_le _
      · have hone : ∀ a : Option SocketAddr, a.toList.length ≤ 1 := by
          intro a
          cases a with
          | none => exact Nat.zero_le 1
          | some _ => exact Nat.le_refl 1
        rw [List.length_append, Nat.add_comm]
        exact Nat.add_le_add (ih _) (hone _)

theorem isInfix_window (bytes : Bytes) (off n : Nat) : Bytes.window bytes off n <:+: bytes :=
  (List.take_prefix n _).isInfix.trans (List.drop_suffix off bytes).isInfix

theorem octets_of_answersOf (n : Nat) (bytes : Bytes) :
    ∀ a ∈ answersOf n bytes, a.ip.octets <:+: bytes := by
  induction n generalizing bytes with
  | zero => exact fun a ha => absurd ha List.not_mem_nil
  | succ n ih =>
      intro a ha
      have hafter : afterName bytes <:+: bytes := (List.drop_suffix _ bytes).isInfix
      rw [answersOf] at ha
      split at ha
      · cases ha
      rw [List.mem_append, Option.mem_toList] at ha
      obtain hhere | hlater := ha
      · rw [octets_of_addressOf hhere]
        exact (isInfix_window _ _ _).trans hafter
      · exact (ih _ a hlater).trans ((List.drop_suffix _ _).isInfix.trans hafter)

theorem questionsRest_suffix {n : Nat} {bytes rest : Bytes}
    (h : questionsRest n bytes = some rest) : rest <:+ bytes := by
  induction n generalizing bytes with
  | zero =>
      cases h
      exact List.suffix_refl _
  | succ n ih =>
      rw [questionsRest] at h
      split at h
      · cases h
      · exact (ih h).trans ((List.drop_suffix _ _).trans (List.drop_suffix _ _))

theorem length_addressesOf_le (data : Bytes) : (addressesOf data).length ≤ ancount data := by
  unfold addressesOf
  split
  · exact Nat.zero_le _
  · split
    · exact Nat.zero_le _
    · exact length_answersOf_le _ _

theorem octets_of_addressesOf (data : Bytes) : ∀ a ∈ addressesOf data, a.ip.octets <:+: data := by
  intro a ha
  unfold addressesOf at ha
  split at ha
  · cases ha
  split at ha
  · cases ha
  · rename_i rest hrest
    have hsuffix := (questionsRest_suffix hrest).trans (List.drop_suffix 12 data)
    exact (octets_of_answersOf _ _ a ha).trans hsuffix.isInfix

/-- Both functions end on every byte string, without an index outside the data. A
name ends at most 192 bytes past the end, and no address is made up. -/
theorem hostile_response_safe (data : Bytes) :
    (∀ pos, ∃ stop, Returns (fun fuel => skipName data fuel pos) stop ∧
      pos < stop ∧ stop ≤ max pos data.length + 192) ∧
    ∃ addrs, Returns (fun fuel => parseDnsResponse fuel data) addrs ∧
      addrs.length ≤ ancount data ∧ ∀ a ∈ addrs, a.ip.octets <:+: data := by
  refine ⟨fun pos => ⟨nameEnd data pos, returns_nameEnd data pos, ?_, ?_⟩, addressesOf data,
    returns_addressesOf data, length_addressesOf_le data, octets_of_addressesOf data⟩
  · exact Nat.lt_add_of_pos_right (nameSize_pos _)
  · have hle := nameSize_le (data.drop pos)
    rw [List.length_drop] at hle
    rw [nameEnd]
    omega

/-! ## Cut responses -/

theorem u16At_take {bytes : Bytes} {n k : Nat} (h : k + 1 < (bytes.take n).length) :
    u16At (bytes.take n) k = u16At bytes k := by
  rw [List.length_take] at h
  have hget : ∀ j, j ≤ k + 1 → (bytes.take n).getD j 0 = bytes.getD j 0 := by
    intro j hj
    rw [List.getD_eq_getElem?_getD, List.getD_eq_getElem?_getD, List.getElem?_take,
      if_pos (by omega)]
  rw [u16At, u16At, hget k (by omega), hget (k + 1) (Nat.le_refl _)]

/-- What is left after a name in a cut string is a cut of what is left in the
whole; nothing, when the name ends past the cut. -/
theorem afterName_take (n : Nat) (bytes : Bytes) :
    ∃ k, afterName (bytes.take n) = (afterName bytes).take k := by
  obtain hsame | hpast := nameSize_take n bytes
  · exact ⟨n - nameSize bytes, by rw [afterName, afterName, hsame, List.drop_take]⟩
  · refine ⟨0, ?_⟩
    rw [afterName, List.take_zero, List.drop_eq_nil_iff]
    exact Nat.le_trans (List.length_take_le n bytes) (Nat.le_of_lt hpast)

theorem questionsRest_take (n k : Nat) (bytes : Bytes) {cut : Bytes}
    (h : questionsRest n (bytes.take k) = some cut) :
    ∃ rest m, questionsRest n bytes = some rest ∧ cut = rest.take m := by
  induction n generalizing k bytes with
  | zero =>
      cases h
      exact ⟨bytes, k, rfl, rfl⟩
  | succ n ih =>
      obtain ⟨m, hafter⟩ := afterName_take k bytes
      rw [questionsRest, hafter] at h
      split at h
      · cases h
      rename_i hlong
      rw [List.length_take] at hlong
      rw [List.drop_take] at h
      rw [questionsRest, if_neg (by omega)]
      exact ih _ _ h

theorem window_take {bytes : Bytes} {m off n : Nat} (h : off + n ≤ (bytes.take m).length) :
    Bytes.window (bytes.take m) off n = Bytes.window bytes off n := by
  rw [List.length_take] at h
  rw [Bytes.window, Bytes.window, List.drop_take, List.take_take, Nat.min_eq_left (by omega)]

theorem answersOf_take (n k : Nat) (bytes : Bytes) :
    answersOf n (bytes.take k) <+: answersOf n bytes := by
  induction n generalizing k bytes with
  | zero => exact List.prefix_refl _
  | succ n ih =>
      obtain ⟨m, hafter⟩ := afterName_take k bytes
      rw [answersOf, answersOf, hafter]
      by_cases hshort : ((afterName bytes).take m).length
          < 10 + (u16At ((afterName bytes).take m) 8).toNat
      · rw [if_pos hshort]
        exact List.nil_prefix
      rw [if_neg hshort]
      have hrdlength : u16At ((afterName bytes).take m) 8 = u16At (afterName bytes) 8 :=
        u16At_take (by omega)
      have hatype : u16At ((afterName bytes).take m) 0 = u16At (afterName bytes) 0 :=
        u16At_take (by omega)
      rw [hrdlength] at hshort
      have hlen := List.length_take_le' m (afterName bytes)
      rw [hrdlength, hatype, window_take (by omega), if_neg (by omega), List.drop_take]
      exact List.prefix_append_right_inj _ |>.mpr (ih _ _)

theorem addressesOf_take (data : Bytes) (n : Nat) :
    addressesOf (data.take n) <+: addressesOf data := by
  unfold addressesOf
  by_cases hshort : (data.take n).length < 12
  · rw [if_pos hshort]
    exact List.nil_prefix
  have hlen := List.length_take_le' n data
  rw [if_neg hshort, if_neg (by omega)]
  have hqdcount : qdcount (data.take n) = qdcount data := by
    rw [qdcount, qdcount, u16At_take (by omega)]
  have hancount : ancount (data.take n) = ancount data := by
    rw [ancount, ancount, u16At_take (by omega)]
  rw [hqdcount, hancount, List.drop_take]
  cases hcut : questionsRest (qdcount data) ((data.drop 12).take (n - 12)) with
  | none => exact List.nil_prefix
  | some cut =>
      obtain ⟨rest, m, hrest, rfl⟩ := questionsRest_take _ _ _ hcut
      rw [hrest]
      exact answersOf_take _ _ _

theorem truncated_response_prefix (data : Bytes) (n : Nat) :
    ∃ cut whole, Returns (fun fuel => parseDnsResponse fuel (data.take n)) cut ∧
      Returns (fun fuel => parseDnsResponse fuel data) whole ∧ cut <+: whole :=
  ⟨_, _, returns_addressesOf _, returns_addressesOf _, addressesOf_take data n⟩

end LiteXmr
