/-
LiteXmr.Lib.Dialogue — one side of a conversation over a byte stream.

A dialogue reads from the bytes that the other side has sent, in their order,
and appends to those it sends itself. The other side sends what it likes and may
stop anywhere; reading past the end fails.

* `Dialogue.Speaks G` — the dialogue succeeds exactly on the streams that begin
  with bytes of the grammar `G`: it takes these bytes and no others off the
  stream, and sends what `G` says. The grammar relates what is read, what is
  written and the result.
* `speaks_pure`, `speaks_bind`, `speaks_readExact`, `speaks_writeAll`, `speaks_fail`,
  `speaks_bailIf` and `speaks_ite` give the grammar of a dialogue from those of its parts.
* `Dialogue.Sends` — what a dialogue sends whatever happens.
-/
import LiteXmr.Lib.Bytes

namespace LiteXmr

/-- The bytes still to be read, and those sent so far. -/
structure Wire where
  incoming : Bytes
  sent : Bytes
  deriving DecidableEq

def Dialogue (ε α : Type) : Type := Wire → Except ε α × Wire

namespace Dialogue

variable {ε α β : Type}

instance : Monad (Dialogue ε) where
  pure a := fun wire => (.ok a, wire)
  bind x f := fun wire =>
    match x wire with
    | (.ok a, wire) => f a wire
    | (.error e, wire) => (.error e, wire)

def fail (e : ε) : Dialogue ε α := fun wire => (.error e, wire)

/-- `write_all`, on a connection that takes everything. -/
def writeAll (bytes : Bytes) : Dialogue ε Unit := fun wire =>
  (.ok (), { wire with sent := wire.sent ++ bytes })

/-- `read_exact`: `eof` when the stream ends before. -/
def readExact (eof : ε) (n : Nat) : Dialogue ε Bytes := fun wire =>
  if n ≤ wire.incoming.length then
    (.ok (wire.incoming.take n), { wire with incoming := wire.incoming.drop n })
  else (.error eof, { wire with incoming := [] })

/-- Fail when the condition holds. -/
def bailIf (c : Prop) [Decidable c] (e : ε) : Dialogue ε Unit := if c then fail e else pure ()

def ofExcept : Except ε α → Dialogue ε α
  | .ok a => pure a
  | .error e => fail e

theorem bind_apply (x : Dialogue ε α) (f : α → Dialogue ε β) (wire : Wire) :
    (x >>= f) wire = match x wire with
      | (.ok a, wire) => f a wire
      | (.error e, wire) => (.error e, wire) := rfl

/-! ## Grammars -/

/-- What is read, what is written meanwhile, and the result. -/
abbrev Grammar (α : Type) := Bytes → Bytes → α → Prop

def Speaks (x : Dialogue ε α) (G : Grammar α) : Prop :=
  ∀ wire a wire', x wire = (.ok a, wire') ↔
    ∃ read written, wire.incoming = read ++ wire'.incoming ∧
      wire'.sent = wire.sent ++ written ∧ G read written a

/-- One grammar after the other. -/
def Grammar.seq (G : Grammar α) (H : α → Grammar β) : Grammar β := fun read written b =>
  ∃ read₁ read₂ written₁ written₂ a, read = read₁ ++ read₂ ∧ written = written₁ ++ written₂ ∧
    G read₁ written₁ a ∧ H a read₂ written₂ b

theorem Speaks.congr {x : Dialogue ε α} {G H : Grammar α} (h : Speaks x G)
    (hGH : ∀ read written a, G read written a ↔ H read written a) : Speaks x H := by
  intro wire a wire'
  rw [h wire a wire']
  simp only [hGH]

theorem speaks_pure (a : α) :
    Speaks (pure a : Dialogue ε α) fun read written b => read = [] ∧ written = [] ∧ b = a := by
  intro wire b wire'
  refine ⟨fun h => ?_, fun ⟨read, written, hread, hwritten, hnil, hnil', hb⟩ => ?_⟩
  · cases h
    exact ⟨[], [], rfl, (List.append_nil _).symm, rfl, rfl, rfl⟩
  · rw [hnil, List.nil_append] at hread
    rw [hnil', List.append_nil] at hwritten
    rw [hb]
    cases wire
    cases wire'
    cases hread
    cases hwritten
    rfl

theorem speaks_fail (e : ε) : Speaks (fail e : Dialogue ε α) fun _ _ _ => False := by
  intro wire a wire'
  refine ⟨fun h => ?_, fun ⟨_, _, _, _, h⟩ => h.elim⟩
  cases h

theorem speaks_bind {x : Dialogue ε α} {f : α → Dialogue ε β} {G : Grammar α}
    {H : α → Grammar β} (hx : Speaks x G) (hf : ∀ a, Speaks (f a) (H a)) :
    Speaks (x >>= f) (G.seq H) := by
  intro wire b wire''
  rw [bind_apply]
  constructor
  · intro h
    split at h
    · next a wire' hx' =>
        obtain ⟨read₁, written₁, hread₁, hwritten₁, hG⟩ := (hx wire a wire').mp hx'
        obtain ⟨read₂, written₂, hread₂, hwritten₂, hH⟩ := (hf a wire' b wire'').mp h
        refine ⟨read₁ ++ read₂, written₁ ++ written₂, ?_, ?_,
          read₁, read₂, written₁, written₂, a, rfl, rfl, hG, hH⟩
        · rw [hread₁, hread₂, List.append_assoc]
        · rw [hwritten₂, hwritten₁, List.append_assoc]
    · cases h
  · intro ⟨read, written, hread, hwritten, read₁, read₂, written₁, written₂, a, hr, hw, hG, hH⟩
    have hx' : x wire = (.ok a, ⟨read₂ ++ wire''.incoming, wire.sent ++ written₁⟩) :=
      (hx wire a _).mpr ⟨read₁, written₁, by rw [hread, hr, List.append_assoc], rfl, hG⟩
    rw [hx']
    refine (hf a _ b wire'').mpr ⟨read₂, written₂, rfl, ?_, hH⟩
    rw [hwritten, hw, List.append_assoc]

theorem speaks_writeAll (bytes : Bytes) :
    Speaks (writeAll bytes : Dialogue ε Unit) fun read written _ =>
      read = [] ∧ written = bytes := by
  intro wire _ wire'
  refine ⟨fun h => ?_, fun ⟨read, written, hread, hwritten, hnil, hbytes⟩ => ?_⟩
  · cases h
    exact ⟨[], bytes, rfl, rfl, rfl, rfl⟩
  · rw [hnil, List.nil_append] at hread
    rw [hbytes] at hwritten
    cases wire'
    cases hread
    cases hwritten
    rfl

theorem speaks_readExact (eof : ε) (n : Nat) :
    Speaks (readExact eof n) fun read written bytes =>
      read = bytes ∧ bytes.length = n ∧ written = [] := by
  intro wire bytes wire'
  unfold readExact
  constructor
  · intro h
    split at h
    · next hle =>
        cases h
        exact ⟨wire.incoming.take n, [], (List.take_append_drop n _).symm,
          (List.append_nil _).symm, rfl, List.length_take_of_le hle, rfl⟩
    · cases h
  · intro ⟨read, written, hread, hwritten, hbytes, hlen, hnil⟩
    rw [hnil, List.append_nil] at hwritten
    rw [hbytes] at hread
    have hle : n ≤ wire.incoming.length := by
      rw [hread, List.length_append]
      omega
    rw [if_pos hle, hread, List.take_left' hlen, List.drop_left' hlen]
    cases wire'
    cases hwritten
    rfl

theorem speaks_ite {c : Prop} [Decidable c] {x y : Dialogue ε α} {G H : Grammar α}
    (hx : Speaks x G) (hy : Speaks y H) :
    Speaks (if c then x else y) fun read written a =>
      (c ∧ G read written a) ∨ (¬ c ∧ H read written a) := by
  by_cases hc : c
  · rw [if_pos hc]
    exact hx.congr fun _ _ _ => by simp only [hc, true_and, not_true_eq_false, false_and, or_false]
  · rw [if_neg hc]
    exact hy.congr fun _ _ _ => by simp only [hc, false_and, not_false_eq_true, true_and, false_or]

theorem speaks_bailIf (c : Prop) [Decidable c] (e : ε) :
    Speaks (bailIf c e) fun read written _ => read = [] ∧ written = [] ∧ ¬ c := by
  refine (speaks_ite (speaks_fail e) (speaks_pure ())).congr fun read written a => ?_
  simp only [and_false, false_or, and_true]
  exact ⟨fun ⟨hc, hread, hwritten⟩ => ⟨hread, hwritten, hc⟩,
    fun ⟨hread, hwritten, hc⟩ => ⟨hc, hread, hwritten⟩⟩

theorem speaks_ofExcept (result : Except ε α) :
    Speaks (ofExcept result) fun read written a =>
      read = [] ∧ written = [] ∧ result = .ok a := by
  cases result with
  | ok a =>
      refine (speaks_pure a).congr fun read written b => ?_
      simp only [Except.ok.injEq, eq_comm]
  | error e =>
      refine (speaks_fail e).congr fun read written b => ?_
      simp only [reduceCtorEq, and_false]

/-! ## What is sent in any case -/

/-- The dialogue sends `bytes`, also when it fails. -/
def Sends (x : Dialogue ε α) (bytes : Bytes) : Prop :=
  ∀ wire, (x wire).2.sent = wire.sent ++ bytes

theorem sends_writeAll (bytes : Bytes) : Sends (writeAll bytes : Dialogue ε Unit) bytes :=
  fun _ => rfl

theorem sends_pure (a : α) : Sends (pure a : Dialogue ε α) [] :=
  fun wire => (List.append_nil wire.sent).symm

theorem sends_fail (e : ε) : Sends (fail e : Dialogue ε α) [] :=
  fun wire => (List.append_nil wire.sent).symm

theorem sends_readExact (eof : ε) (n : Nat) : Sends (readExact eof n) [] := by
  intro wire
  unfold readExact
  split
  · exact (List.append_nil wire.sent).symm
  · exact (List.append_nil wire.sent).symm

theorem sends_bailIf (c : Prop) [Decidable c] (e : ε) : Sends (bailIf c e) [] := by
  unfold bailIf
  split
  · exact sends_fail e
  · exact sends_pure ()

/-- Behind a part that may fail, a part that sends nothing. -/
theorem Sends.bind {x : Dialogue ε α} {f : α → Dialogue ε β} {bytes : Bytes}
    (hx : Sends x bytes) (hf : ∀ a, Sends (f a) []) : Sends (x >>= f) bytes := by
  intro wire
  have hsent := hx wire
  rw [bind_apply]
  split
  · next a wire' hx' =>
      rw [hx'] at hsent
      rw [hf a wire', hsent, List.append_nil]
  · next e wire' hx' =>
      rw [hx'] at hsent
      exact hsent

end Dialogue

end LiteXmr
