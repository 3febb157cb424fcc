/-
LiteXmr.Lib.Base64 — byte strings as text in an alphabet of 64 characters
(RFC 4648).

Three bytes are 24 bits, and these are four groups of six (`sextets`). At the
end one byte makes two groups and two bytes make three, with zero bits to fill
up. `bytesOf` goes back, and refuses what no byte string is written as: one
group alone, or bits other than zero where there is nothing but filling.

`encode` and `decode` are the text without padding, `encodePadded` and
`decodePadded` the text with `=` signs up to a multiple of four. The alphabet
is a parameter; `decode_encode` and `decodePadded_encodePadded` are the round
trips.
-/
import LiteXmr.Lib.Bytes
import Mathlib.Algebra.Order.Floor.Div
import Mathlib.Data.List.GetD

namespace LiteXmr.Base64

/-! ## Groups of six bits -/

/-- Three bytes as one number. -/
def joined (a b c : UInt8) : Nat := a.toNat * 65536 + b.toNat * 256 + c.toNat

def group (n : Nat) : List Nat := [n / 262144 % 64, n / 4096 % 64, n / 64 % 64, n % 64]

def sextets : Bytes → List Nat
  | [] => []
  | [a] => (group (joined a 0 0)).take 2
  | [a, b] => (group (joined a b 0)).take 3
  | a :: b :: c :: rest => group (joined a b c) ++ sextets rest

def firstByte (x y : Nat) : UInt8 := UInt8.ofNat (x * 4 + y / 16)

def secondByte (y z : Nat) : UInt8 := UInt8.ofNat (y % 16 * 16 + z / 4)

def thirdByte (z w : Nat) : UInt8 := UInt8.ofNat (z % 4 * 64 + w)

def bytesOf : List Nat → Option Bytes
  | [] => some []
  | [_] => none
  | [x, y] => if y % 16 = 0 then some [firstByte x y] else none
  | [x, y, z] => if z % 4 = 0 then some [firstByte x y, secondByte y z] else none
  | x :: y :: z :: w :: rest =>
      (bytesOf rest).map fun bs => firstByte x y :: secondByte y z :: thirdByte z w :: bs

theorem ofNat_eq_of_toNat {n : Nat} {b : UInt8} (h : n = b.toNat) : UInt8.ofNat n = b := by
  rw [h, UInt8.ofNat_toNat]

section

variable (a b c : UInt8)

theorem firstByte_group :
    firstByte (joined a b c / 262144 % 64) (joined a b c / 4096 % 64) = a := by
  have hb := b.toNat_lt
  have hc := c.toNat_lt
  have ha := a.toNat_lt
  exact ofNat_eq_of_toNat (by unfold joined; omega)

theorem secondByte_group :
    secondByte (joined a b c / 4096 % 64) (joined a b c / 64 % 64) = b := by
  have hb := b.toNat_lt
  have hc := c.toNat_lt
  exact ofNat_eq_of_toNat (by unfold joined; omega)

theorem thirdByte_group : thirdByte (joined a b c / 64 % 64) (joined a b c % 64) = c := by
  have hc := c.toNat_lt
  exact ofNat_eq_of_toNat (by unfold joined; omega)

end

theorem bytesOf_sextets (bs : Bytes) : bytesOf (sextets bs) = some bs := by
  induction bs using sextets.induct with
  | case1 => rfl
  | case2 a =>
      have hfill : joined a 0 0 / 4096 % 64 % 16 = 0 := by
        unfold joined
        simp only [UInt8.toNat_zero]
        omega
      simp only [sextets, group, List.take_succ_cons, List.take_zero, bytesOf, hfill, if_true,
        firstByte_group]
  | case3 a b =>
      have hfill : joined a b 0 / 64 % 64 % 4 = 0 := by
        unfold joined
        simp only [UInt8.toNat_zero]
        omega
      simp only [sextets, group, List.take_succ_cons, List.take_zero, bytesOf, hfill, if_true,
        firstByte_group, secondByte_group]
  | case4 a b c rest ih =>
      simp only [sextets, group, List.cons_append, List.nil_append, bytesOf, ih, Option.map_some,
        firstByte_group, secondByte_group, thirdByte_group]

theorem sextets_lt (bs : Bytes) : ∀ v ∈ sextets bs, v < 64 := by
  have hgroup : ∀ n, ∀ v ∈ group n, v < 64 := by
    intro n v hv
    simp only [group, List.mem_cons, List.not_mem_nil, or_false] at hv
    omega
  induction bs using sextets.induct with
  | case1 => exact nofun
  | case2 a => exact fun v hv => hgroup _ v (List.mem_of_mem_take hv)
  | case3 a b => exact fun v hv => hgroup _ v (List.mem_of_mem_take hv)
  | case4 a b c rest ih =>
      rw [sextets, List.forall_mem_append]
      exact ⟨hgroup _, ih⟩

theorem length_sextets (bs : Bytes) : (sextets bs).length = (4 * bs.length) ⌈/⌉ 3 := by
  rw [Nat.ceilDiv_eq_add_pred_div]
  induction bs using sextets.induct with
  | case1 => rfl
  | case2 a => simp [sextets, group]
  | case3 a b => simp [sextets, group]
  | case4 a b c rest ih =>
      simp only [sextets, group, List.length_append, List.length_cons, List.length_nil, ih]
      omega

/-! ## Alphabets -/

structure Alphabet where
  letters : List Char
  length : letters.length = 64
  nodup : letters.Nodup
  noPad : '=' ∉ letters

namespace Alphabet

variable (A : Alphabet)

def digit (v : Nat) : Char := A.letters.getD v 'A'

def value (c : Char) : Option Nat :=
  if c ∈ A.letters then some (A.letters.idxOf c) else none

theorem digit_mem {v : Nat} (h : v < 64) : A.digit v ∈ A.letters := by
  have hlt : v < A.letters.length := by rwa [A.length]
  rw [digit, List.getD_eq_getElem _ _ hlt]
  exact List.getElem_mem hlt

theorem value_digit {v : Nat} (h : v < 64) : A.value (A.digit v) = some v := by
  have hlt : v < A.letters.length := by rwa [A.length]
  rw [value, if_pos (A.digit_mem h), digit, List.getD_eq_getElem _ _ hlt,
    A.nodup.idxOf_getElem]

end Alphabet

def standard : Alphabet where
  letters := "ABCDEFGHIJKLMNOPQRSTUVWXYZabcdefghijklmnopqrstuvwxyz0123456789+/".toList
  length := by decide +kernel
  nodup := by decide +kernel
  noPad := by decide +kernel

/-- The alphabet for URLs and file names. -/
def urlSafe : Alphabet where
  letters := "ABCDEFGHIJKLMNOPQRSTUVWXYZabcdefghijklmnopqrstuvwxyz0123456789-_".toList
  length := by decide +kernel
  nodup := by decide +kernel
  noPad := by decide +kernel

/-! ## Text -/

variable (A : Alphabet) (bs : Bytes)

def encode : List Char := (sextets bs).map A.digit

def decode (cs : List Char) : Option Bytes := (cs.mapM A.value).bind bytesOf

theorem mapM_value_digit {vs : List Nat} (h : ∀ v ∈ vs, v < 64) :
    (vs.map A.digit).mapM A.value = some vs := by
  induction vs with
  | nil => rfl
  | cons v vs ih =>
      rw [List.forall_mem_cons] at h
      rw [List.map_cons, List.mapM_cons, A.value_digit h.1, ih h.2]
      rfl

theorem decode_encode : decode A (encode A bs) = some bs := by
  rw [decode, encode, mapM_value_digit A (sextets_lt bs), Option.bind_some, bytesOf_sextets]

theorem length_encode : (encode A bs).length = (4 * bs.length) ⌈/⌉ 3 := by
  rw [encode, List.length_map, length_sextets]

theorem encode_cons3 (a b c : UInt8) (rest : Bytes) :
    encode A (a :: b :: c :: rest) = encode A [a, b, c] ++ encode A rest := by
  rw [encode, sextets, List.map_append]
  rfl

theorem encode_mem : ∀ c ∈ encode A bs, c ∈ A.letters := by
  intro c hc
  obtain ⟨v, hv, rfl⟩ := List.mem_map.mp hc
  exact A.digit_mem (sextets_lt bs v hv)

/-- The same bytes in another alphabet, character by character. -/
theorem encode_eq_map {B : Alphabet} {f : Char → Char}
    (h : ∀ v < 64, B.digit v = f (A.digit v)) : encode B bs = (encode A bs).map f := by
  rw [encode, encode, List.map_map]
  exact List.map_congr_left fun v hv => h v (sextets_lt bs v hv)

/-! ## Padding -/

def padding (n : Nat) : List Char := List.replicate ((3 - n % 3) % 3) '='

def encodePadded : List Char := encode A bs ++ padding bs.length

def decodePadded (cs : List Char) : Option Bytes :=
  if cs.length % 4 = 0 ∧ cs.dropWhile (· != '=') ∈ [[], ['='], ['=', '=']] then
    decode A (cs.takeWhile (· != '='))
  else none

theorem encodePadded_cons3 (a b c : UInt8) (rest : Bytes) :
    encodePadded A (a :: b :: c :: rest)
      = encodePadded A [a, b, c] ++ encodePadded A rest := by
  have hrest : padding (a :: b :: c :: rest).length = padding rest.length := by
    simp only [padding, List.length_cons, Nat.add_assoc, Nat.add_mod_right]
  have hnone : padding [a, b, c].length = [] := by simp [padding]
  rw [encodePadded, encodePadded, encodePadded, encode_cons3, hrest, hnone, List.append_nil,
    List.append_assoc]

theorem padding_mem (n : Nat) : padding n ∈ [[], ['='], ['=', '=']] := by
  obtain h | h | h : n % 3 = 0 ∨ n % 3 = 1 ∨ n % 3 = 2 := by omega
  · rw [padding, h]
    decide
  · rw [padding, h]
    decide
  · rw [padding, h]
    decide

theorem ne_pad_of_mem_encode : ∀ c ∈ encode A bs, (c != '=') = true := by
  intro c hc
  rw [bne_iff_ne]
  rintro rfl
  exact A.noPad (encode_mem A bs '=' hc)

theorem takeWhile_encodePadded :
    (encodePadded A bs).takeWhile (· != '=') = encode A bs := by
  rw [encodePadded, List.takeWhile_append_of_pos (ne_pad_of_mem_encode A bs), padding,
    List.takeWhile_replicate]
  simp

theorem dropWhile_encodePadded :
    (encodePadded A bs).dropWhile (· != '=') = padding bs.length := by
  rw [encodePadded, List.dropWhile_append_of_pos (ne_pad_of_mem_encode A bs), padding,
    List.dropWhile_replicate]
  simp

theorem length_encodePadded : (encodePadded A bs).length = 4 * (bs.length ⌈/⌉ 3) := by
  rw [encodePadded, List.length_append, length_encode, padding, List.length_replicate,
    Nat.ceilDiv_eq_add_pred_div, Nat.ceilDiv_eq_add_pred_div]
  omega

theorem decodePadded_encodePadded : decodePadded A (encodePadded A bs) = some bs := by
  have hfour : (encodePadded A bs).length % 4 = 0 := by
    rw [length_encodePadded]
    exact Nat.mul_mod_right 4 _
  rw [decodePadded, dropWhile_encodePadded, if_pos ⟨hfour, padding_mem _⟩,
    takeWhile_encodePadded, decode_encode]

end LiteXmr.Base64
