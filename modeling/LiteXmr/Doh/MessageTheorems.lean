/-
LiteXmr.Doh.MessageTheorems — the reader of DNS answers on well-formed messages.

What a response is, apart from its bytes: a header, questions, answer records
and whatever a server appends. Names, questions, records and messages carry the
bounds of their length fields, so every value has an encoding.

`nameSize_encode` and `answersOf_encode` read one name and a list of records at
the head of arbitrary further bytes; `message_addresses` puts them together:
the reader returns the addresses of the answer records, in their order, whatever
stands between them.
-/
import LiteXmr.Doh.ResponseTheorems

namespace LiteXmr

open Checked

/-! ## Messages -/

/-- A label of a name; its length byte leaves the two highest bits free. -/
structure Label where
  bytes : Bytes
  pos : 0 < bytes.length
  le : bytes.length ≤ 63

/-- A name ends with a zero byte, or with a pointer to the rest of it. -/
inductive NameEnding where
  | root
  | pointer (hi lo : UInt8) (h : hi &&& 0xC0 = 0xC0)

structure Name where
  labels : List Label
  ending : NameEnding

structure Question where
  name : Name
  qtype : UInt16
  qclass : UInt16

structure Record where
  name : Name
  atype : UInt16
  aclass : UInt16
  ttl : UInt32
  rdata : Bytes
  fits : rdata.length < 2 ^ 16

structure Message where
  id : UInt16
  flags : UInt16
  questions : List Question
  answers : List Record
  nscount : UInt16
  arcount : UInt16
  /-- Authority and additional records, or anything else. -/
  trailing : Bytes
  questions_fit : questions.length < 2 ^ 16
  answers_fit : answers.length < 2 ^ 16

/-- What the answers say: the IPv4 addresses of the records of type 1 and the
IPv6 addresses of the records of type 28. -/
def Record.address (record : Record) : Option SocketAddr := addressOf record.atype record.rdata

def Message.addresses (message : Message) : List SocketAddr :=
  message.answers.filterMap Record.address

/-! ## Encoding -/

def Label.encode (label : Label) : Bytes := UInt8.ofNat label.bytes.length :: label.bytes

def NameEnding.encode : NameEnding → Bytes
  | .root => [0]
  | .pointer hi lo _ => [hi, lo]

def Name.encode (name : Name) : Bytes := name.labels.flatMap Label.encode ++ name.ending.encode

def Question.encode (question : Question) : Bytes :=
  question.name.encode ++ (Bytes.beOfNat 2 question.qtype.toNat
    ++ Bytes.beOfNat 2 question.qclass.toNat)

def Record.encode (record : Record) : Bytes :=
  record.name.encode ++ (Bytes.beOfNat 2 record.atype.toNat ++ (Bytes.beOfNat 2 record.aclass.toNat
    ++ (Bytes.beOfNat 4 record.ttl.toNat ++ (Bytes.beOfNat 2 record.rdata.length
    ++ record.rdata))))

def Message.encode (message : Message) : Bytes :=
  Bytes.beOfNat 2 message.id.toNat ++ (Bytes.beOfNat 2 message.flags.toNat
    ++ (Bytes.beOfNat 2 message.questions.length ++ (Bytes.beOfNat 2 message.answers.length
    ++ (Bytes.beOfNat 2 message.nscount.toNat ++ (Bytes.beOfNat 2 message.arcount.toNat
    ++ (message.questions.flatMap Question.encode ++ (message.answers.flatMap Record.encode
    ++ message.trailing)))))))

/-! ## Reading fields back -/

/-- A field at the head of the bytes. -/
theorem u16At_zero {n : Nat} (h : n < 2 ^ 16) (rest : Bytes) :
    u16At (Bytes.beOfNat 2 n ++ rest) 0 = UInt16.ofNat n := by
  have hvalue := Bytes.natOfBe_beOfNat 2 n
  have hfits : n < 256 ^ 2 := by omega
  obtain ⟨hi, lo, hfield⟩ := List.length_eq_two.mp (Bytes.length_beOfNat 2 n)
  rw [hfield, Nat.mod_eq_of_lt hfits] at hvalue
  rw [hfield]
  change UInt16.ofNat (Bytes.natOfBe [hi, lo]) = UInt16.ofNat n
  rw [hvalue]

/-- A field behind others. -/
theorem u16At_append {before : Bytes} {k : Nat} (h : before.length ≤ k) (rest : Bytes) :
    u16At (before ++ rest) k = u16At rest (k - before.length) := by
  have hget : ∀ j, before.length ≤ j → (before ++ rest).getD j 0
      = rest.getD (j - before.length) 0 := by
    intro j hj
    rw [List.getD_eq_getElem?_getD, List.getD_eq_getElem?_getD, List.getElem?_append_right hj]
  rw [u16At, u16At, hget k h, hget (k + 1) (by omega), Nat.sub_add_comm h]

theorem u16At_beOfNat {n k : Nat} (h : k = 0) (hn : n < 2 ^ 16) (rest : Bytes) :
    (u16At (Bytes.beOfNat 2 n ++ rest) k).toNat = n := by
  rw [h, u16At_zero hn, UInt16.toNat_ofNat', Nat.mod_eq_of_lt hn]

/-! ## Names -/

theorem nameSize_ending (ending : NameEnding) (rest : Bytes) :
    nameSize (ending.encode ++ rest) = ending.encode.length := by
  cases ending with
  | root => exact nameSize_zero rest
  | pointer hi lo h => exact nameSize_pointer h

theorem nameSize_labels (labels : List Label) (rest : Bytes) :
    nameSize (labels.flatMap Label.encode ++ rest)
      = (labels.flatMap Label.encode).length + nameSize rest := by
  induction labels with
  | nil => rw [List.flatMap_nil, List.nil_append, List.length_nil, Nat.zero_add]
  | cons label labels ih =>
      have hlen : (UInt8.ofNat label.bytes.length).toNat = label.bytes.length := by
        have hle := label.le
        rw [UInt8.toNat_ofNat', Nat.mod_eq_of_lt (by omega)]
      have hne : UInt8.ofNat label.bytes.length ≠ 0 := by
        intro hzero
        rw [hzero] at hlen
        exact absurd hlen (Nat.ne_of_lt label.pos)
      have hbits : ∀ n : Fin 64, UInt8.ofNat n.val &&& 0xC0 ≠ 0xC0 := by decide
      have hlabel : UInt8.ofNat label.bytes.length &&& 0xC0 ≠ 0xC0 :=
        hbits ⟨label.bytes.length, Nat.lt_succ_of_le label.le⟩
      rw [List.flatMap_cons, List.append_assoc, Label.encode, List.cons_append,
        nameSize_label hne hlabel, hlen, List.drop_left, ih, List.length_append, List.length_cons]
      omega

theorem nameSize_encode (name : Name) (rest : Bytes) :
    nameSize (name.encode ++ rest) = name.encode.length := by
  rw [Name.encode, List.append_assoc, nameSize_labels, nameSize_ending, List.length_append]

theorem afterName_encode (name : Name) (rest : Bytes) :
    afterName (name.encode ++ rest) = rest := by
  rw [afterName, nameSize_encode, List.drop_left]

/-! ## Questions and records -/

theorem questionsRest_encode (questions : List Question) (rest : Bytes) :
    questionsRest questions.length (questions.flatMap Question.encode ++ rest) = some rest := by
  induction questions with
  | nil => rfl
  | cons question questions ih =>
      have hfixed : (Bytes.beOfNat 2 question.qtype.toNat
          ++ Bytes.beOfNat 2 question.qclass.toNat).length = 4 := by
        rw [List.length_append, Bytes.length_beOfNat, Bytes.length_beOfNat]
      rw [List.length_cons, questionsRest, List.flatMap_cons, List.append_assoc, Question.encode,
        List.append_assoc, afterName_encode, List.length_append, hfixed, if_neg (by omega),
        List.drop_left' hfixed]
      exact ih

/-- The bytes of a record after its name: ten of fixed fields, then the RDATA. -/
def Record.fixed (record : Record) : Bytes :=
  Bytes.beOfNat 2 record.atype.toNat ++ (Bytes.beOfNat 2 record.aclass.toNat
    ++ (Bytes.beOfNat 4 record.ttl.toNat ++ Bytes.beOfNat 2 record.rdata.length))

theorem Record.length_fixed (record : Record) : record.fixed.length = 10 := by
  simp only [Record.fixed, List.length_append, Bytes.length_beOfNat]

theorem Record.encode_eq (record : Record) :
    record.encode = record.name.encode ++ (record.fixed ++ record.rdata) := by
  simp only [Record.encode, Record.fixed, List.append_assoc]

theorem Record.u16At_atype (record : Record) (rest : Bytes) :
    u16At (record.fixed ++ rest) 0 = record.atype := by
  rw [Record.fixed, List.append_assoc, u16At_zero record.atype.toNat_lt, UInt16.ofNat_toNat]

theorem Record.u16At_rdlength (record : Record) (rest : Bytes) :
    (u16At (record.fixed ++ rest) 8).toNat = record.rdata.length := by
  simp only [Record.fixed, List.append_assoc]
  rw [u16At_append (by simp), u16At_append (by simp), u16At_append (by simp)]
  exact u16At_beOfNat (by simp) record.fits rest

theorem answersOf_encode (records : List Record) (rest : Bytes) :
    answersOf records.length (records.flatMap Record.encode ++ rest)
      = records.filterMap Record.address := by
  induction records with
  | nil => rfl
  | cons record records ih =>
      rw [List.length_cons, List.flatMap_cons, List.append_assoc, Record.encode_eq,
        List.append_assoc, List.append_assoc, answersOf, afterName_encode]
      generalize hmore : records.flatMap Record.encode ++ rest = more at ih
      have hlen := record.length_fixed
      have hwindow : Bytes.window (record.fixed ++ (record.rdata ++ more)) 10 record.rdata.length
          = record.rdata := by
        rw [Bytes.window, List.drop_left' hlen, List.take_left]
      have hdrop : (record.fixed ++ (record.rdata ++ more)).drop (10 + record.rdata.length)
          = more := by
        rw [← List.drop_drop, List.drop_left' hlen, List.drop_left]
      have hfits : ¬ (record.fixed ++ (record.rdata ++ more)).length
          < 10 + record.rdata.length := by
        rw [List.length_append, List.length_append, hlen]
        omega
      rw [record.u16At_rdlength, record.u16At_atype, if_neg hfits, hwindow, hdrop, ih,
        List.filterMap_cons]
      change record.address.toList ++ _ = _
      cases record.address with
      | none => rfl
      | some _ => rfl

/-! ## Messages -/

/-- The twelve bytes before the questions. -/
def Message.header (message : Message) : Bytes :=
  Bytes.beOfNat 2 message.id.toNat ++ (Bytes.beOfNat 2 message.flags.toNat
    ++ (Bytes.beOfNat 2 message.questions.length ++ (Bytes.beOfNat 2 message.answers.length
    ++ (Bytes.beOfNat 2 message.nscount.toNat ++ Bytes.beOfNat 2 message.arcount.toNat))))

theorem Message.length_header (message : Message) : message.header.length = 12 := by
  simp only [Message.header, List.length_append, Bytes.length_beOfNat]

theorem Message.encode_eq (message : Message) :
    message.encode = message.header ++ (message.questions.flatMap Question.encode
      ++ (message.answers.flatMap Record.encode ++ message.trailing)) := by
  simp only [Message.encode, Message.header, List.append_assoc]

theorem Message.qdcount_encode (message : Message) :
    qdcount message.encode = message.questions.length := by
  rw [qdcount, Message.encode, u16At_append (by simp), u16At_append (by simp)]
  exact u16At_beOfNat (by simp) message.questions_fit _

theorem Message.ancount_encode (message : Message) :
    ancount message.encode = message.answers.length := by
  rw [ancount, Message.encode, u16At_append (by simp), u16At_append (by simp),
    u16At_append (by simp)]
  exact u16At_beOfNat (by simp) message.answers_fit _

theorem addressesOf_encode (message : Message) :
    addressesOf message.encode = message.addresses := by
  have hbody : message.encode.drop 12 = message.questions.flatMap Question.encode
      ++ (message.answers.flatMap Record.encode ++ message.trailing) := by
    rw [message.encode_eq]
    exact List.drop_left' message.length_header
  have hlong : ¬ message.encode.length < 12 := by
    rw [message.encode_eq, List.length_append, message.length_header]
    omega
  rw [addressesOf, if_neg hlong, message.qdcount_encode, hbody, questionsRest_encode,
    message.ancount_encode]
  exact answersOf_encode message.answers message.trailing

/-- The reader returns the addresses of the message and nothing else. -/
theorem message_addresses (message : Message) (addrs : List SocketAddr) :
    Returns (fun fuel => parseDnsResponse fuel message.encode) addrs ↔
      addrs = message.addresses := by
  have hreturns := returns_addressesOf message.encode
  rw [addressesOf_encode] at hreturns
  refine ⟨fun h => h.unique hreturns, fun h => ?_⟩
  rw [h]
  exact hreturns

end LiteXmr
