/-
LiteXmr.Lib.Base16 — hexadecimal text for byte strings.

`encode` writes two lower-case digits per byte, high half first. `decode`
accepts digits of either case and refuses a text of odd length or with any
other character. This is the documented behaviour of `hex::encode` and
`hex::decode`.

`decode_encode` is the round trip, `encode_eq_iff` is the other direction for
texts in lower case, `decode_isSome_iff` says which texts are read, and
`length_encode` is the length of a text.
-/
import LiteXmr.Lib.Bytes

namespace LiteXmr.Base16

/-! ## Digits -/

def digitChars : List Char :=
  ['0', '1', '2', '3', '4', '5', '6', '7', '8', '9', 'a', 'b', 'c', 'd', 'e', 'f']

/-- The digit of a value below sixteen. -/
def digit (v : Nat) : Char := digitChars.getD v '0'

/-- The value of a digit of either case. -/
def value (c : Char) : Option Nat :=
  if '0' ≤ c ∧ c ≤ '9' then some (c.toNat - '0'.toNat)
  else if 'a' ≤ c ∧ c ≤ 'f' then some (c.toNat - 'a'.toNat + 10)
  else if 'A' ≤ c ∧ c ≤ 'F' then some (c.toNat - 'A'.toNat + 10)
  else none

theorem value_digit : ∀ v : Fin 16, value (digit v) = some v.val := by decide

/-! ## Texts -/

/-- The text consists of digits. -/
def IsHex (s : String) : Prop := ∀ c ∈ s.toList, (value c).isSome = true

instance (s : String) : Decidable (IsHex s) := List.decidableBAll _ s.toList

def encodeChars (bs : Bytes) : List Char :=
  bs.flatMap fun b => [digit (b.toNat / 16), digit (b.toNat % 16)]

def encode (bs : Bytes) : String := String.ofList (encodeChars bs)

def decodeChars : List Char → Option Bytes
  | [] => some []
  | [_] => none
  | hi :: lo :: rest =>
      match value hi, value lo, decodeChars rest with
      | some h, some l, some bs => some (UInt8.ofNat (16 * h + l) :: bs)
      | _, _, _ => none

def decode (s : String) : Option Bytes := decodeChars s.toList

theorem decodeChars_encodeChars (bs : Bytes) : decodeChars (encodeChars bs) = some bs := by
  induction bs with
  | nil => rfl
  | cons b bs ih =>
      have hb := b.toNat_lt
      have hhi := value_digit ⟨b.toNat / 16, by omega⟩
      have hlo := value_digit ⟨b.toNat % 16, by omega⟩
      have hcons : encodeChars (b :: bs)
          = digit (b.toNat / 16) :: digit (b.toNat % 16) :: encodeChars bs := by
        simp [encodeChars]
      rw [hcons, decodeChars]
      simp only [hhi, hlo, ih]
      rw [Nat.div_add_mod, UInt8.ofNat_toNat]

@[simp] theorem decode_encode (bs : Bytes) : decode (encode bs) = some bs := by
  simp [decode, encode, decodeChars_encodeChars]

theorem isSome_decodeChars : ∀ {cs : List Char}, cs.length % 2 = 0 →
    (∀ c ∈ cs, (value c).isSome = true) → (decodeChars cs).isSome = true
  | [], _, _ => rfl
  | [_], heven, _ => by simp at heven
  | hi :: lo :: rest, heven, hdigits => by
      have hrest : (decodeChars rest).isSome = true :=
        isSome_decodeChars (by simp only [List.length_cons] at heven; omega)
          (fun c hc => hdigits c (by simp [hc]))
      obtain ⟨u, hu⟩ := Option.isSome_iff_exists.mp (hdigits hi (by simp))
      obtain ⟨l, hl⟩ := Option.isSome_iff_exists.mp (hdigits lo (by simp))
      obtain ⟨bs, hbs⟩ := Option.isSome_iff_exists.mp hrest
      simp [decodeChars, hu, hl, hbs]

/-- What can be read is made of digits, two for each byte. -/
theorem digits_of_decodeChars : ∀ {cs : List Char} {bs : Bytes}, decodeChars cs = some bs →
    (∀ c ∈ cs, (value c).isSome = true) ∧ cs.length = 2 * bs.length
  | [], _, h => by
      cases h
      exact ⟨fun _ hc => absurd hc List.not_mem_nil, rfl⟩
  | [_], _, h => by cases h
  | hi :: lo :: rest, _, h => by
      simp only [decodeChars] at h
      split at h
      · next u l bs hu hl hbs =>
          cases h
          obtain ⟨hdigits, hlen⟩ := digits_of_decodeChars hbs
          refine ⟨List.forall_mem_cons.mpr ⟨?_, List.forall_mem_cons.mpr ⟨?_, hdigits⟩⟩, ?_⟩
          · rw [hu]
            rfl
          · rw [hl]
            rfl
          · rw [List.length_cons, List.length_cons, List.length_cons, hlen]
            omega
      · cases h

theorem decode_isSome_iff (s : String) :
    (decode s).isSome = true ↔ IsHex s ∧ s.toList.length % 2 = 0 := by
  constructor
  · intro h
    obtain ⟨bs, hbs⟩ := Option.isSome_iff_exists.mp h
    obtain ⟨hdigits, hlen⟩ := digits_of_decodeChars hbs
    exact ⟨hdigits, by omega⟩
  · intro h
    exact isSome_decodeChars h.2 h.1

theorem length_of_decode {s : String} {bs : Bytes} (h : decode s = some bs) :
    s.toList.length = 2 * bs.length := (digits_of_decodeChars h).2

theorem digitChars_eq : digitChars = (List.finRange 16).map fun v : Fin 16 => digit v := by
  decide

theorem digit_value : ∀ c ∈ digitChars, ∃ v, value c = some v ∧ v < 16 ∧ digit v = c := by
  intro c hc
  rw [digitChars_eq, List.mem_map] at hc
  obtain ⟨v, -, rfl⟩ := hc
  exact ⟨v, value_digit v, v.isLt, rfl⟩

theorem utf8Size_digit : ∀ v : Fin 16, (digit v).utf8Size = 1 := by decide

/-- A text of lower-case digits is the text of the bytes it is read as. -/
theorem encodeChars_of_decodeChars : ∀ {cs : List Char}, (∀ c ∈ cs, c ∈ digitChars) →
    ∀ {bs : Bytes}, decodeChars cs = some bs → encodeChars bs = cs
  | [], _, _, h => by
      cases h
      rfl
  | [_], _, _, h => by cases h
  | hi :: lo :: rest, hdigits, _, h => by
      obtain ⟨u, hu, hu16, hhi⟩ := digit_value hi (hdigits hi (by simp))
      obtain ⟨l, hl, hl16, hlo⟩ := digit_value lo (hdigits lo (by simp))
      simp only [decodeChars, hu, hl] at h
      split at h
      · next u' l' bs hu' hl' hbs =>
          cases hu'
          cases hl'
          cases h
          have htoNat : (UInt8.ofNat (16 * u + l)).toNat = 16 * u + l :=
            UInt8.toNat_ofNat_of_lt (by rw [UInt8.size]; omega)
          have hdiv : (16 * u + l) / 16 = u := by omega
          have hmod : (16 * u + l) % 16 = l := by omega
          have hrest := encodeChars_of_decodeChars (fun c hc => hdigits c (by simp [hc])) hbs
          simp only [encodeChars, List.flatMap_cons, htoNat, hdiv, hmod, hhi, hlo] at hrest ⊢
          rw [hrest]
          rfl
      · cases h

/-- Bytes have a given text of lower-case digits exactly when it is read as
these bytes. -/
theorem encode_eq_iff {bs : Bytes} {s : String} (hdigits : ∀ c ∈ s.toList, c ∈ digitChars) :
    encode bs = s ↔ decode s = some bs := by
  constructor
  · rintro rfl
    exact decode_encode bs
  · intro h
    rw [encode, encodeChars_of_decodeChars hdigits h, String.ofList_toList]

theorem length_encode (bs : Bytes) : (encode bs).toList.length = 2 * bs.length := by
  simp only [encode, String.toList_ofList]
  induction bs with
  | nil => rfl
  | cons b bs ih =>
      simp only [encodeChars, List.flatMap_cons, List.length_append, List.length_cons,
        List.length_nil] at ih ⊢
      omega

end LiteXmr.Base16
