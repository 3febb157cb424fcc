/-
LiteXmr.Controller.BlockTemplateTheorems — the block that is made of a template.

The miner writes a nonce into the bytes of a blob and reports it as text; the
controller writes the bytes of that text into the text of a template.
`template_with_reported_nonce` says that both ways lead to the same bytes, and
`blockTemplateWithNonce_eq_none_iff` what the controller refuses.
-/
import LiteXmr.Controller.DaemonMode
import LiteXmr.Job.NonceTheorems

namespace LiteXmr.Daemon

/-- Digits of either case, two for each of `n` bytes. -/
def IsHexOf (n : Nat) (s : String) : Prop := Base16.IsHex s ∧ s.toList.length = 2 * n

theorem isHexOf_iff {n : Nat} {s : String} :
    IsHexOf n s ↔ ∃ bs, Base16.decode s = some bs ∧ bs.length = n := by
  constructor
  · intro h
    obtain ⟨hhex, hlen⟩ := h
    obtain ⟨bs, hbs⟩ := Option.isSome_iff_exists.mp
      ((Base16.decode_isSome_iff s).mpr ⟨hhex, by omega⟩)
    have := Base16.length_of_decode hbs
    exact ⟨bs, hbs, by omega⟩
  · intro h
    obtain ⟨bs, hbs, rfl⟩ := h
    have hsome : (Base16.decode s).isSome = true := by rw [hbs]; rfl
    exact ⟨((Base16.decode_isSome_iff s).mp hsome).1, Base16.length_of_decode hbs⟩

/-- The controller makes a block of a template that has a nonce field and a nonce of four
bytes, and of nothing else. -/
theorem blockTemplateWithNonce_eq_none_iff (templateHex nonceHex : String) :
    blockTemplateWithNonce templateHex nonceHex = none ↔
      ¬ ((∃ n, 43 ≤ n ∧ IsHexOf n templateHex) ∧ IsHexOf 4 nonceHex) := by
  simp only [isHexOf_iff]
  unfold blockTemplateWithNonce
  cases Base16.decode templateHex with
  | none => simp
  | some template =>
      cases Base16.decode nonceHex with
      | none => simp
      | some nonce =>
          by_cases hlen : nonce.length = 4
          · by_cases hlong : 43 ≤ template.length
            · simp [hlen, hlong, nonceOffset]
            · simp [hlen, hlong, nonceOffset, Nat.not_le.mp hlong]
          · simp [hlen]

/-- The text of a nonce in the text of a template is the nonce written into its bytes. -/
theorem decode_blockTemplateWithNonce {templateHex : String} {template : Bytes}
    (hdecode : Base16.decode templateHex = some template) (hlong : 43 ≤ template.length)
    (nonce : UInt32) :
    ∃ block, blockTemplateWithNonce templateHex (formatNonce nonce) = some block ∧
      Base16.decode block = some (stamp template nonce) := by
  have hfits : ¬ nonceOffset + 4 > template.length := by
    rw [nonceOffset]
    omega
  refine ⟨Base16.encode (stamp template nonce), ?_, Base16.decode_encode _⟩
  simp only [blockTemplateWithNonce, formatNonce, Base16.decode_encode, hdecode,
    length_u32ToLe, ne_eq, not_true_eq_false, if_false, if_neg hfits, stamp]

/-- A block of a well-formed template holds the bytes that a full write of the nonce
leaves; without a well-formed template and a nonce of four bytes there is none. -/
theorem template_with_reported_nonce (templateHex : String) :
    (∀ len, 43 ≤ len → IsHexOf len templateHex → ∀ nonce : UInt32,
      ∃ template block written, Base16.decode templateHex = some template ∧
        blockTemplateWithNonce templateHex (formatNonce nonce) = some block ∧
        writeNonce template nonce u32Max = some (written, nonce) ∧
        Base16.decode block = some written ∧
        readNonce written = some nonce ∧ written.length = template.length ∧
        ∀ k, k < 39 ∨ 43 ≤ k → written[k]? = template[k]?) ∧
    ∀ nonceHex, (blockTemplateWithNonce templateHex nonceHex = none ↔
      ¬ ((∃ len, 43 ≤ len ∧ IsHexOf len templateHex) ∧ IsHexOf 4 nonceHex)) := by
  refine ⟨?_, blockTemplateWithNonce_eq_none_iff templateHex⟩
  intro len hlen hhex nonce
  obtain ⟨template, hdecode, rfl⟩ := isHexOf_iff.mp hhex
  obtain ⟨block, hblock, hbytes⟩ := decode_blockTemplateWithNonce hdecode hlen nonce
  have hwrite := writeNonce_of_le hlen nonce u32Max
  rw [mergeNonce_u32Max] at hwrite
  have hstamp := length_stamp hlen nonce
  refine ⟨template, block, stamp template nonce, hdecode, hblock, hwrite, hbytes, ?_, hstamp,
    fun k hk => getElem?_stamp hlen nonce hk⟩
  rw [readNonce_eq_nonceField (by omega), nonceField_stamp hlen]

/-- A template of 43 zero bytes. -/
theorem template_with_reported_nonce_zero :
    ∃ block,
      blockTemplateWithNonce (String.ofList (List.replicate 86 '0')) "78563412" = some block ∧
      (Base16.decode block).bind readNonce = some 0x12345678 := by
  have hhex : IsHexOf 43 (String.ofList (List.replicate 86 '0')) := by
    rw [IsHexOf, Base16.IsHex, String.toList_ofList]
    refine ⟨fun c hc => ?_, List.length_replicate⟩
    rw [List.eq_of_mem_replicate hc]
    rfl
  obtain ⟨_, block, written, _, hblock, _, hbytes, hread, _⟩ :=
    (template_with_reported_nonce _).1 43 (Nat.le_refl 43) hhex 0x12345678
  have hformat : formatNonce 0x12345678 = "78563412" := by decide
  rw [hformat] at hblock
  refine ⟨block, hblock, ?_⟩
  rw [hbytes]
  exact hread

end LiteXmr.Daemon
