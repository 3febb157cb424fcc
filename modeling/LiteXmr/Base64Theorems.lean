/-
LiteXmr.Base64Theorems — the encoders write base64 (RFC 4648).

A chunk and its table are the groups of six bits and the alphabet of
`Lib/Base64.lean` (`toNat_chunkTriple`, `tableChar_eq`), so `base64url_encode`
is the text without padding in the URL alphabet (`base64urlEncode_eq`), and
`base64` the padded text in the standard one (`base64_eq`). `base64_encoders`
says what this means for those who decode them.
-/
import LiteXmr.Base64
import LiteXmr.Lib.Base64
import LiteXmr.Rust.StrTheorems

namespace LiteXmr

open Base64 (joined group sextets encode encodePadded decode decodePadded padding standard urlSafe)

/-! ## Chunks and tables -/

theorem toNat_chunkTriple (chunk : Bytes) :
    (chunkTriple chunk).toNat
      = joined (chunk.getD 0 0) (chunk.getD 1 0) (chunk.getD 2 0) := by
  have h0 := (chunk.getD 0 0).toNat_lt
  have h1 := (chunk.getD 1 0).toNat_lt
  have h2 := (chunk.getD 2 0).toNat_lt
  have hhigh : (chunk.getD 0 0).toNat <<< 16 % 2 ^ 32 = (chunk.getD 0 0).toNat <<< 16 :=
    Nat.mod_eq_of_lt (by rw [Nat.shiftLeft_eq]; omega)
  have hmiddle : (chunk.getD 1 0).toNat <<< 8 % 2 ^ 32 = (chunk.getD 1 0).toNat <<< 8 :=
    Nat.mod_eq_of_lt (by rw [Nat.shiftLeft_eq]; omega)
  simp only [chunkTriple, UInt32.toNat_or, UInt32.toNat_shiftLeft, UInt8.toNat_toUInt32]
  change (chunk.getD 0 0).toNat <<< 16 % 2 ^ 32 ||| (chunk.getD 1 0).toNat <<< 8 % 2 ^ 32 |||
    (chunk.getD 2 0).toNat = _
  -- the bits of the three bytes do not overlap
  rw [hhigh, hmiddle, Nat.or_assoc, ← Nat.shiftLeft_add_eq_or_of_lt h2,
    ← Nat.shiftLeft_add_eq_or_of_lt (by rw [Nat.shiftLeft_eq]; omega), Nat.shiftLeft_eq,
    Nat.shiftLeft_eq, joined, Nat.add_assoc]

theorem tableChar_eq (table : String) (triple : UInt32) {shift : UInt32}
    (h : shift.toNat < 32) :
    tableChar table triple shift
      = table.toList.getD (triple.toNat / 2 ^ shift.toNat % 64) 'A' := by
  have hmask : (0x3F : UInt32).toNat = 2 ^ 6 - 1 := rfl
  rw [tableChar, UInt32.toNat_and, UInt32.toNat_shiftRight, hmask,
    Nat.and_two_pow_sub_one_eq_mod, Nat.mod_eq_of_lt h, Nat.shiftRight_eq_div_pow]

/-- The four characters of a number are those of its groups. -/
theorem tableChars_eq {A : Base64.Alphabet} (table : String) (h : A.letters = table.toList)
    (triple : UInt32) :
    [tableChar table triple 18, tableChar table triple 12, tableChar table triple 6,
      tableChar table triple 0] = (group triple.toNat).map A.digit := by
  simp only [group, List.map_cons, List.map_nil, Base64.Alphabet.digit, h]
  rw [tableChar_eq table triple (by decide), tableChar_eq table triple (by decide),
    tableChar_eq table triple (by decide), tableChar_eq table triple (by decide)]
  simp

/-- A chunk is written with one character more than it has bytes. -/
theorem encode_chunk (A : Base64.Alphabet) {chunk : Bytes}
    (h : chunk.length = 1 ∨ chunk.length = 2 ∨ chunk.length = 3) :
    encode A chunk
      = ((group (chunkTriple chunk).toNat).map A.digit).take (chunk.length + 1) := by
  rw [toNat_chunkTriple, ← List.map_take]
  obtain hlen | hlen | hlen := h
  · obtain ⟨a, rfl⟩ := List.length_eq_one_iff.mp hlen
    rfl
  · obtain ⟨a, b, rfl⟩ := List.length_eq_two.mp hlen
    rfl
  · obtain ⟨a, b, c, rfl⟩ := List.length_eq_three.mp hlen
    rfl

theorem base64urlChunk_eq {chunk : Bytes}
    (h : chunk.length = 1 ∨ chunk.length = 2 ∨ chunk.length = 3) :
    base64urlChunk chunk = encode urlSafe chunk := by
  rw [encode_chunk urlSafe h, ← tableChars_eq (A := urlSafe) base64urlTable rfl]
  obtain hlen | hlen | hlen := h
  · simp [base64urlChunk, hlen]
  · simp [base64urlChunk, hlen]
  · simp [base64urlChunk, hlen]

theorem base64Chunk_eq {chunk : Bytes}
    (h : chunk.length = 1 ∨ chunk.length = 2 ∨ chunk.length = 3) :
    base64Chunk chunk = encodePadded standard chunk := by
  rw [encodePadded, encode_chunk standard h, ← tableChars_eq (A := standard) base64Table rfl]
  obtain hlen | hlen | hlen := h
  · simp [base64Chunk, hlen, padding]
  · simp [base64Chunk, hlen, padding]
  · simp [base64Chunk, hlen, padding]

/-! ## The two encoders -/

/-- What is written chunk by chunk, when three bytes can be split off. -/
theorem flatMap_chunks3 {write : Bytes → List Char} (data : Bytes) {f : Bytes → List Char}
    (hnil : write [] = [])
    (hcons : ∀ a b c rest, write (a :: b :: c :: rest) = write [a, b, c] ++ write rest)
    (hchunk : ∀ chunk : Bytes, chunk.length = 1 ∨ chunk.length = 2 ∨ chunk.length = 3 →
      f chunk = write chunk) :
    (chunks3 data).flatMap f = write data := by
  induction data using chunks3.induct with
  | case1 => rw [chunks3, List.flatMap_nil, hnil]
  | case2 a =>
      rw [chunks3, List.flatMap_cons, List.flatMap_nil, List.append_nil,
        hchunk [a] (Or.inl rfl)]
  | case3 a b =>
      rw [chunks3, List.flatMap_cons, List.flatMap_nil, List.append_nil,
        hchunk [a, b] (Or.inr (Or.inl rfl))]
  | case4 a b c rest ih =>
      rw [chunks3, List.flatMap_cons, ih, hchunk [a, b, c] (Or.inr (Or.inr rfl)),
        hcons a b c rest]

theorem base64urlEncode_eq (data : Bytes) :
    base64urlEncode data = String.ofList (encode urlSafe data) := by
  rw [base64urlEncode, flatMap_chunks3 data rfl (Base64.encode_cons3 urlSafe)
    fun _ => base64urlChunk_eq]

theorem base64_eq (input : String) :
    base64 input = String.ofList (encodePadded standard (Str.asBytes input)) := by
  rw [base64, flatMap_chunks3 (Str.asBytes input) rfl (Base64.encodePadded_cons3 standard)
    fun _ => base64Chunk_eq]

/-! ## Reading them -/

theorem len_of_ascii {cs : List Char} (h : ∀ c ∈ cs, c.utf8Size = 1) :
    Str.len (String.ofList cs) = cs.length := by
  rw [Str.len, String.toList_ofList]
  induction cs with
  | nil => rfl
  | cons c cs ih =>
      rw [List.forall_mem_cons] at h
      rw [List.map_cons, List.sum_cons, ih h.2, h.1, List.length_cons, Nat.add_comm]

/-- The character of the URL alphabet for one of the standard alphabet. -/
def urlSafeChar (c : Char) : Char := if c = '+' then '-' else if c = '/' then '_' else c

theorem urlSafe_digit : ∀ v < 64, urlSafe.digit v = urlSafeChar (standard.digit v) := by
  decide +kernel

theorem utf8Size_standard : ∀ c ∈ '=' :: standard.letters, c.utf8Size = 1 :=
  List.all_iff_forall_prop.mp (by decide +kernel)

theorem utf8Size_urlSafe : ∀ c ∈ urlSafe.letters, c.utf8Size = 1 :=
  List.all_iff_forall_prop.mp (by decide +kernel)

theorem mem_encodePadded (bs : Bytes) :
    ∀ c ∈ encodePadded standard bs, c ∈ '=' :: standard.letters := by
  intro c hc
  obtain hc | hc := List.mem_append.mp hc
  · exact List.mem_cons_of_mem _ (Base64.encode_mem standard bs c hc)
  · rw [List.eq_of_mem_replicate hc]
    exact List.mem_cons_self

theorem trimEndMatches_base64 (input : String) :
    Str.trimEndMatches (base64 input) '='
      = String.ofList (encode standard (Str.asBytes input)) := by
  have hpad : ∀ c ∈ padding (Str.asBytes input).length, (c == '=') = true := by
    intro c hc
    rw [List.eq_of_mem_replicate hc]
    rfl
  have hbody : (encode standard (Str.asBytes input)).rdropWhile (· == '=')
      = encode standard (Str.asBytes input) := by
    refine List.rdropWhile_eq_self_iff.mpr fun hne => ?_
    rw [beq_iff_eq]
    intro hlast
    have hmem := Base64.encode_mem standard (Str.asBytes input) _ (List.getLast_mem hne)
    rw [hlast] at hmem
    exact standard.noPad hmem
  rw [base64_eq, Str.trimEndMatches_ofList, encodePadded, Str.rdropWhile_append_of_forall hpad,
    hbody]

/-- What the encoders write is read as what they got; the texts have the lengths they should
have, and differ in the alphabet and the padding only. -/
theorem base64_encoders :
    (∀ data : Bytes,
      decode urlSafe (base64urlEncode data).toList = some data ∧
      Str.len (base64urlEncode data) = (4 * data.length) ⌈/⌉ (3 : Nat)) ∧
    ∀ input : String,
      decodePadded standard (base64 input).toList = some (Str.asBytes input) ∧
      Str.len (base64 input) = 4 * ((Str.asBytes input).length ⌈/⌉ (3 : Nat)) ∧
      base64urlEncode (Str.asBytes input)
        = String.ofList ((Str.trimEndMatches (base64 input) '=').toList.map urlSafeChar) := by
  refine ⟨fun data => ⟨?_, ?_⟩, fun input => ⟨?_, ?_, ?_⟩⟩
  · rw [base64urlEncode_eq, String.toList_ofList, Base64.decode_encode]
  · rw [base64urlEncode_eq, len_of_ascii, Base64.length_encode]
    exact fun c hc => utf8Size_urlSafe c (Base64.encode_mem urlSafe data c hc)
  · rw [base64_eq, String.toList_ofList, Base64.decodePadded_encodePadded]
  · rw [base64_eq, len_of_ascii, Base64.length_encodePadded]
    exact fun c hc => utf8Size_standard c (mem_encodePadded _ c hc)
  · rw [base64urlEncode_eq, trimEndMatches_base64, String.toList_ofList,
      Base64.encode_eq_map standard _ urlSafe_digit]

/-! ## What is sent -/

/-- The query goes into the address of the request as it is, and nothing of it needs to be
escaped there. -/
theorem dohUrl_query (server hostname : String) (qtype : UInt16) :
    ∃ text, dohUrl server hostname qtype = server ++ "?dns=" ++ text ∧
      decode urlSafe text.toList = some (buildDnsQuery hostname qtype) ∧
      ∀ c ∈ text.toList, c ∈ urlSafe.letters := by
  refine ⟨_, rfl, ?_, ?_⟩
  · rw [base64urlEncode_eq, String.toList_ofList, Base64.decode_encode]
  · rw [base64urlEncode_eq, String.toList_ofList]
    exact Base64.encode_mem urlSafe _

/-- The header carries the login of the configuration, which is never blank. -/
theorem authorization_new {url wallet : String} {rpcLogin : Option String} {header : String}
    (h : (DaemonRpcClient.new url wallet rpcLogin).authorization = some header) :
    ∃ login text, rpcLogin = some login ∧ Str.trim login ≠ "" ∧ header = "Basic " ++ text ∧
      decodePadded standard text.toList = some (Str.asBytes login) := by
  obtain ⟨login, hlogin, rfl⟩ := Option.map_eq_some_iff.mp h
  obtain ⟨hsome, hblank⟩ := Option.filter_eq_some_iff.mp hlogin
  refine ⟨login, base64 login, hsome, of_decide_eq_true hblank, rfl, ?_⟩
  rw [base64_eq, String.toList_ofList, Base64.decodePadded_encodePadded]

end LiteXmr
