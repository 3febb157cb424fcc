/-
LiteXmr.Doh.QueryTheorems — which hosts have a well-formed query.

`EncodesHost` is what a resolver has to find: a message with one question, whose
name has the labels of the host and ends with the root. A label of a name has 1
to 63 bytes, and the encoder checks neither bound: `encodesHost_iff` says that the
hosts between whose dots there are 1 to 63 bytes are the only ones it serves.

A host with a trailing dot is not among them. The dot already stands for the root,
which the encoder then writes twice (`trailing_dot_query`).
-/
import LiteXmr.Doh.MessageTheorems
import LiteXmr.Doh.Query
import LiteXmr.Pool.Address

namespace LiteXmr

open Checked

/-! ## What a query has to be -/

/-- The labels a host consists of; a trailing dot stands for the root. -/
def hostLabels (host : String) : List String :=
  let parts := Str.split host '.'
  if parts.getLast? = some "" then parts.dropLast else parts

/-- The message asks for the addresses of the host and for nothing else. -/
structure Message.Asks (message : Message) (question : Question) (host : String)
    (qtype : UInt16) : Prop where
  questions : message.questions = [question]
  answers : message.answers = []
  nscount : message.nscount = 0
  arcount : message.arcount = 0
  trailing : message.trailing = []
  ending : question.name.ending = .root
  labels : question.name.labels.map Label.bytes = (hostLabels host).map Str.asBytes
  qtype : question.qtype = qtype
  qclass : question.qclass = 1

structure EncodesHost (host : String) (qtype : UInt16) : Prop where
  asks : ∃ message question, Message.encode message = buildDnsQuery host qtype ∧
    message.Asks question host qtype
  /-- The reader of the answers finds the end of the name where it is. -/
  nameEnds : Returns (fun fuel => skipName (buildDnsQuery host qtype) fuel 12)
    ((buildDnsQuery host qtype).length - 4)

/-- What the encoder needs of a part between the dots. -/
def LabelFits (part : String) : Prop := 1 ≤ Str.len part ∧ Str.len part ≤ 63

def LabelsFit (host : String) : Prop := ∀ part ∈ Str.split host '.', LabelFits part

/-! ## Sizes -/

theorem length_asBytes (s : String) : (Str.asBytes s).length = Str.len s := by
  rw [Str.asBytes, List.length_flatMap, Str.len]
  simp only [String.length_utf8EncodeChar]

/-- The bytes that labels take with their length bytes. -/
def labelsSize (labels : List Bytes) : Nat := (labels.map fun bytes => bytes.length + 1).sum

theorem labelsSize_append (labels labels' : List Bytes) :
    labelsSize (labels ++ labels') = labelsSize labels + labelsSize labels' := by
  simp only [labelsSize, List.map_append, List.sum_append]

theorem length_labels (labels : List Label) :
    (labels.flatMap Label.encode).length = labelsSize (labels.map Label.bytes) := by
  rw [labelsSize, List.length_flatMap, List.map_map]
  rfl

theorem length_parts (parts : List String) :
    (parts.flatMap queryLabel).length = labelsSize (parts.map Str.asBytes) := by
  rw [labelsSize, List.length_flatMap, List.map_map]
  rfl

theorem Question.length_encode {question : Question} (h : question.name.ending = .root) :
    question.encode.length = labelsSize (question.name.labels.map Label.bytes) + 5 := by
  rw [Question.encode, Name.encode, h, ← length_labels]
  simp only [NameEnding.encode, List.length_append, Bytes.length_beOfNat, List.length_singleton]

/-- The question, as it stands after the header. -/
def queryQuestion (host : String) (qtype : UInt16) : Bytes :=
  (Str.split host '.').flatMap queryLabel
    ++ ([0] ++ (Bytes.beOfNat 2 qtype.toNat ++ Bytes.beOfNat 2 1))

theorem length_queryHeader : queryHeader.length = 12 := by decide

theorem length_queryQuestion (host : String) (qtype : UInt16) :
    (queryQuestion host qtype).length = labelsSize ((Str.split host '.').map Str.asBytes) + 5 := by
  rw [queryQuestion, ← length_parts]
  simp only [List.length_append, Bytes.length_beOfNat, List.length_singleton]

/-! ## Messages with one question -/

section

variable {message : Message} {question : Question} {host : String} {qtype : UInt16}

theorem Message.Asks.encode_eq (h : message.Asks question host qtype) :
    message.encode = message.header ++ question.encode := by
  rw [message.encode_eq, h.questions, h.answers, h.trailing]
  simp only [List.flatMap_cons, List.flatMap_nil, List.append_nil]

/-- Header and question of a query are those of its message. -/
theorem Message.Asks.question_eq (h : message.Asks question host qtype)
    (hencode : message.encode = buildDnsQuery host qtype) :
    question.encode = queryQuestion host qtype := by
  rw [h.encode_eq, buildDnsQuery] at hencode
  exact (List.append_inj hencode
    (message.length_header.trans length_queryHeader.symm)).2

/-- The message has no room for the root written twice. -/
theorem Message.Asks.hostLabels_eq (h : message.Asks question host qtype)
    (hencode : message.encode = buildDnsQuery host qtype) :
    hostLabels host = Str.split host '.' := by
  have hlen := congrArg List.length (h.question_eq hencode)
  rw [Question.length_encode h.ending, length_queryQuestion, h.labels] at hlen
  unfold hostLabels at hlen ⊢
  simp only at hlen ⊢
  split
  · next hlast =>
      -- the empty part behind the dot takes one byte
      rw [if_pos hlast] at hlen
      obtain ⟨init, hparts⟩ := List.getLast?_eq_some_iff.mp hlast
      rw [hparts, List.dropLast_concat, List.map_append, labelsSize_append] at hlen
      simp [labelsSize, Str.asBytes] at hlen
  · rfl

end

/-! ## Hosts whose labels fit -/

theorem labelsFit_of_encodesHost {host : String} {qtype : UInt16} (h : EncodesHost host qtype) :
    LabelsFit host := by
  obtain ⟨message, question, hencode, hasks⟩ := h.asks
  intro label hmem
  have hlabels := hasks.labels
  rw [hasks.hostLabels_eq hencode] at hlabels
  have hbytes : Str.asBytes label ∈ question.name.labels.map Label.bytes := by
    rw [hlabels]
    exact List.mem_map_of_mem hmem
  obtain ⟨l, -, hl⟩ := List.mem_map.mp hbytes
  rw [LabelFits, ← length_asBytes, ← hl]
  exact ⟨l.pos, l.le⟩

/-- A part between two dots that fits, as a label. -/
def labelOf (part : String) (h : LabelFits part) : Label :=
  { bytes := Str.asBytes part
    pos := by rw [length_asBytes]; exact h.1
    le := by rw [length_asBytes]; exact h.2 }

theorem labelOf_encode (part : String) (h : LabelFits part) :
    (labelOf part h).encode = queryLabel part := by
  rw [Label.encode, queryLabel, labelOf, length_asBytes]

section

variable {host : String} (hfit : LabelsFit host) (qtype : UInt16)

def questionOf : Question :=
  { name :=
      { labels := (Str.split host '.').pmap labelOf (fun part h => hfit part h)
        ending := .root }
    qtype := qtype
    qclass := 1 }

def messageOf : Message :=
  { id := 0x1234, flags := 0x0100, questions := [questionOf hfit qtype], answers := []
    nscount := 0, arcount := 0, trailing := []
    questions_fit := by rw [List.length_singleton]; decide
    answers_fit := by rw [List.length_nil]; decide }

theorem questionOf_encode : (questionOf hfit qtype).encode = queryQuestion host qtype := by
  have hlabels :
      ((Str.split host '.').pmap labelOf (fun part h => hfit part h)).flatMap Label.encode
        = (Str.split host '.').flatMap queryLabel := by
    rw [List.flatMap_def, List.flatMap_def, List.map_pmap]
    congr 1
    rw [← List.pmap_eq_map (p := LabelFits) (f := queryLabel) (fun part h => hfit part h)]
    exact List.pmap_congr_left _ fun part _ h _ => labelOf_encode part h
  rw [Question.encode, Name.encode, questionOf, queryQuestion, hlabels, List.append_assoc]
  rfl

theorem messageOf_asks : (messageOf hfit qtype).Asks (questionOf hfit qtype) host qtype where
  questions := rfl
  answers := rfl
  nscount := rfl
  arcount := rfl
  trailing := rfl
  ending := rfl
  labels := by
    have hparts : hostLabels host = Str.split host '.' := by
      unfold hostLabels
      simp only
      split
      · next hlast =>
          have hempty := (hfit "" (List.mem_of_getLast? hlast)).1
          exact absurd hempty (by decide)
      · rfl
    rw [hparts, questionOf, List.map_pmap]
    exact List.pmap_eq_map (fun part h => hfit part h)
  qtype := rfl
  qclass := rfl

theorem messageOf_encode : (messageOf hfit qtype).encode = buildDnsQuery host qtype := by
  have hcounts : Bytes.beOfNat 2 0 ++ (Bytes.beOfNat 2 0 ++ Bytes.beOfNat 2 0)
      = List.replicate 6 0 := by decide
  have hheader : (messageOf hfit qtype).header = queryHeader := by
    rw [queryHeader, ← hcounts]
    rfl
  rw [(messageOf_asks hfit qtype).encode_eq, questionOf_encode, hheader]
  rfl

end

theorem encodesHost_of_labelsFit {host : String} (hfit : LabelsFit host) (qtype : UInt16) :
    EncodesHost host qtype where
  asks := ⟨messageOf hfit qtype, questionOf hfit qtype, messageOf_encode hfit qtype,
    messageOf_asks hfit qtype⟩
  nameEnds := by
    have hend : nameEnd (buildDnsQuery host qtype) 12
        = (buildDnsQuery host qtype).length - 4 := by
      have hdrop : (buildDnsQuery host qtype).drop 12 = queryQuestion host qtype :=
        List.drop_left' length_queryHeader
      rw [nameEnd, hdrop, ← questionOf_encode hfit, Question.encode, nameSize_encode,
        buildDnsQuery, ← queryQuestion, ← questionOf_encode hfit, Question.encode]
      simp only [List.length_append, length_queryHeader, Bytes.length_beOfNat]
      omega
    rw [← hend]
    exact returns_nameEnd _ _

/-- The query of a host is well formed exactly when each part between its dots has 1 to
63 bytes. -/
theorem encodesHost_iff (host : String) (qtype : UInt16) :
    EncodesHost host qtype ↔ LabelsFit host :=
  ⟨labelsFit_of_encodesHost, fun hfit => encodesHost_of_labelsFit hfit qtype⟩

/-- The controller passes the host of this address to the encoder as it is. -/
theorem trailing_dot_query :
    parsePoolHostPort "pool.example.:3333" = some ("pool.example.", 3333) ∧
      ¬ EncodesHost "pool.example." 1 := by
  refine ⟨by decide, fun h => ?_⟩
  have hfit := (labelsFit_of_encodesHost h "" (by decide)).1
  exact absurd hfit (by decide)

end LiteXmr
