/-
LiteXmr.Rust.NetTheorems — the characters of a printed address.

An IPv4 address is printed with digits and dots (`mem_ipv4Text`), an IPv6 address
with hexadecimal digits, colons and dots (`mem_ipv6Text`), and with at least one
colon (`colon_mem_ipv6Text`). So a reader that looks for brackets, slashes or
white space finds none inside. A printed port is read back (`parseU16_toDigits`).
-/
import LiteXmr.Rust.Net
import Mathlib.Data.Bool.AllAny

namespace LiteXmr.Net

/-! ## Digits -/

theorem mem_toDigits {b n : Nat} {c : Char} (hb : 1 < b) (h : c ∈ Nat.toDigits b n) :
    ∃ d < b, c = d.digitChar := by
  induction n using Nat.strongRecOn with
  | ind n ih =>
      rw [Nat.toDigits_eq_if hb] at h
      split at h
      · next hlt => exact ⟨n, hlt, List.mem_singleton.mp h⟩
      · next hge =>
          obtain hfront | hlast := List.mem_append.mp h
          · exact ih (n / b) (Nat.div_lt_self (by omega) hb) hfront
          · exact ⟨n % b, Nat.mod_lt n (by omega), List.mem_singleton.mp hlast⟩

theorem mem_intercalate {α : Type} {sep c : α} {parts : List (List α)}
    (h : c ∈ [sep].intercalate parts) : c = sep ∨ ∃ part ∈ parts, c ∈ part := by
  induction parts with
  | nil => cases h
  | cons part parts ih =>
      cases parts with
      | nil =>
          rw [List.intercalate_singleton] at h
          exact Or.inr ⟨part, List.mem_singleton_self part, h⟩
      | cons next parts =>
          rw [List.intercalate_cons_cons, List.mem_append, List.mem_append,
            List.mem_singleton] at h
          obtain (hhere | hsep) | hrest := h
          · exact Or.inr ⟨part, List.mem_cons_self, hhere⟩
          · exact Or.inl hsep
          · obtain hsep | ⟨other, hmem, hc⟩ := ih hrest
            · exact Or.inl hsep
            · exact Or.inr ⟨other, List.mem_cons_of_mem part hmem, hc⟩

theorem sep_mem_intercalate {α : Type} {sep : α} {parts : List (List α)} (h : 2 ≤ parts.length) :
    sep ∈ [sep].intercalate parts := by
  match parts, h with
  | part :: next :: parts, _ =>
      rw [List.intercalate_cons_cons]
      exact List.mem_append_left _ (List.mem_append_right _ (List.mem_singleton_self sep))

/-! ## IPv4 -/

def ipv4Chars : List Char := "0123456789.".toList

theorem mem_ipv4Text {octets : Bytes} : ∀ c ∈ ipv4Text octets, c ∈ ipv4Chars := by
  have hdigits : ∀ d : Fin 10, d.val.digitChar ∈ ipv4Chars := by decide
  intro c hc
  obtain rfl | ⟨part, hpart, hc⟩ := mem_intercalate hc
  · decide
  · obtain ⟨b, -, rfl⟩ := List.mem_map.mp hpart
    obtain ⟨d, hd, rfl⟩ := mem_toDigits (by decide) hc
    exact hdigits ⟨d, hd⟩

/-- There is something of an address besides its separators. -/
theorem intercalate_ne_nil {α : Type} {sep : α} {part : List α} {parts : List (List α)}
    (h : part ≠ []) : [sep].intercalate (part :: parts) ≠ [] := by
  cases parts with
  | nil => rwa [List.intercalate_singleton]
  | cons next parts =>
      rw [List.intercalate_cons_cons]
      exact fun hnil => h (List.append_eq_nil_iff.mp (List.append_eq_nil_iff.mp hnil).1).1

theorem ipv4Text_ne_nil {octets : Bytes} (h : octets.length = 4) : ipv4Text octets ≠ [] := by
  match octets, h with
  | b :: rest, _ => exact intercalate_ne_nil Nat.toDigits_ne_nil

/-! ## IPv6 -/

def ipv6Chars : List Char := "0123456789abcdef:.".toList

theorem mem_groupsText {groups : List Nat} : ∀ c ∈ groupsText groups, c ∈ ipv6Chars := by
  have hdigits : ∀ d : Fin 16, d.val.digitChar ∈ ipv6Chars := by decide
  intro c hc
  obtain rfl | ⟨part, hpart, hc⟩ := mem_intercalate hc
  · decide
  · obtain ⟨n, -, rfl⟩ := List.mem_map.mp hpart
    obtain ⟨d, hd, rfl⟩ := mem_toDigits (by decide) hc
    exact hdigits ⟨d, hd⟩

theorem mem_ipv6Text {octets : Bytes} : ∀ c ∈ ipv6Text octets, c ∈ ipv6Chars := by
  have hipv4 : ∀ c ∈ ipv4Chars, c ∈ ipv6Chars :=
    List.all_iff_forall_prop.mp rfl
  have hmapped : ∀ c ∈ "::ffff:".toList, c ∈ ipv6Chars :=
    List.all_iff_forall_prop.mp rfl
  have hrun : ∀ c ∈ "::".toList, c ∈ ipv6Chars :=
    List.all_iff_forall_prop.mp rfl
  intro c hc
  unfold ipv6Text at hc
  split at hc
  · obtain hc | hc := List.mem_append.mp hc
    · exact hmapped c hc
    · exact hipv4 c (mem_ipv4Text c hc)
  · simp only at hc
    split at hc
    · rw [List.mem_append, List.mem_append] at hc
      obtain (hc | hc) | hc := hc
      · exact mem_groupsText c hc
      · exact hrun c hc
      · exact mem_groupsText c hc
    · exact mem_groupsText c hc

theorem length_segments (octets : Bytes) : (segments octets).length = octets.length / 2 := by
  induction octets using segments.induct with
  | case1 hi lo rest ih =>
      rw [segments, List.length_cons, ih, List.length_cons, List.length_cons]
      omega
  | case2 octets hshort =>
      match octets, hshort with
      | [], _ => rfl
      | [_], _ => simp [segments]
      | hi :: lo :: rest, hshort => exact absurd rfl (hshort hi lo rest)

theorem colon_mem_ipv6Text {octets : Bytes} (h : octets.length = 16) : ':' ∈ ipv6Text octets := by
  unfold ipv6Text
  split
  · exact List.mem_append_left _ (by decide)
  · simp only
    split
    · exact List.mem_append_left _ (List.mem_append_right _ (by decide))
    · -- eight groups, with seven colons between them
      refine sep_mem_intercalate ?_
      rw [List.length_map, length_segments, h]
      decide

/-! ## Ports -/

/-- Without a sign, the digits are the number. -/
theorem parseU16_digits {cs : List Char} (hne : cs ≠ []) (hdigits : ∀ c ∈ cs, c.isDigit = true)
    (hvalue : Nat.ofDigitChars 10 cs 0 < 2 ^ 16) :
    Str.parseU16 (String.ofList cs) = some (UInt16.ofNat (Nat.ofDigitChars 10 cs 0)) := by
  rw [Nat.ofDigitChars_eq_foldl] at hvalue ⊢
  unfold Str.parseU16
  rw [String.toList_ofList]
  split
  · next rest => exact absurd (hdigits '+' List.mem_cons_self) (by decide)
  · exact if_pos ⟨hne, List.all_eq_true.mpr hdigits, hvalue⟩

theorem parseU16_toDigits (port : UInt16) :
    Str.parseU16 (String.ofList (Nat.toDigits 10 port.toNat)) = some port := by
  have hport : Nat.ofDigitChars 10 (Nat.toDigits 10 port.toNat) 0 = port.toNat :=
    Nat.ofDigitChars_ten_toDigits
  rw [parseU16_digits Nat.toDigits_ne_nil
    (fun c hc => Nat.isDigit_of_mem_toDigits (by omega) (by omega) hc)
    (by rw [hport]; exact port.toNat_lt), hport, UInt16.ofNat_toNat]

end LiteXmr.Net
