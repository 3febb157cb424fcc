/-
LiteXmr.Json.WriteTheorems — a written value is read back.

The proof goes the way the text is read. `tokens_write` says what the scanner
makes of a written value: the tokens of `spell`. It rests on `tokens_append`,
by which a complete text may be followed by punctuation. `read_spell` says
that the reader makes the value of these tokens. Both are inductions over
`WellFormed`: numbers that are what their texts say, and no key twice.

`read_toText` puts them together; the value read is the `ordered` one, which
has the same fields (`get_ordered`).
-/
import Mathlib.Algebra.Ring.Int.Defs
import LiteXmr.Json.TextTheorems
import LiteXmr.Json.Write

namespace LiteXmr.JsonText

open Lts

/-! ## Well-formed values -/

/-- The value is one a text can spell: an integer of `i64` below zero, a float
whose text is a number and no integer, and objects without a key twice. -/
inductive WellFormed : Json → Prop where
  | null : WellFormed .null
  | bool (b : Bool) : WellFormed (.bool b)
  | posInt (n : UInt64) : WellFormed (.number (.posInt n))
  | negInt {n : Int} (hlow : -(2 ^ 63) ≤ n) (hneg : n < 0) : WellFormed (.number (.negInt n))
  | float {text : String} (h : number text.toList = some (.float text)) :
      WellFormed (.number (.float text))
  | string (s : String) : WellFormed (.string s)
  | array {xs : List Json} (h : ∀ x ∈ xs, WellFormed x) : WellFormed (.array xs)
  | object {fields : List (String × Json)} (hkeys : (fields.map Prod.fst).Nodup)
      (h : ∀ f ∈ fields, WellFormed f.2) : WellFormed (.object fields)

/-! ## The tokens of a value -/

def separatorToken (first : Bool) : List Token := if first then [] else [.comma]

mutual
def spell : Json → List Token
  | .string s => [.string s.toList]
  | .array xs => .lbracket :: spellElements true xs
  | .object fields => .lbrace :: spellFields true fields
  | v => [.scalar v]

def spellElements (first : Bool) : List Json → List Token
  | [] => [.rbracket]
  | x :: xs => separatorToken first ++ spell x ++ spellElements false xs

def spellFields (first : Bool) : List (String × Json) → List Token
  | [] => [.rbrace]
  | (key, v) :: fields =>
      separatorToken first ++ (.string key.toList :: .colon :: spell v) ++ spellFields false fields
end

/-! ## Complete texts -/

theorem isWordChar_of_punctuation {p : Char} {t : Token} (h : punctuation p = some t) :
    isWordChar p = false := by
  simp [isWordChar, h]

theorem scanBetween_of_punctuation {p : Char} {t : Token} (h : punctuation p = some t) :
    scanBetween p = some (.between, [t]) := by
  have hp : isWhitespace p = false ∧ p ≠ '"' := by
    unfold punctuation at h
    split at h <;> cases h <;> decide
  simp [scanBetween, hp.1, hp.2, h]

/-- Where a text may end, punctuation may follow. -/
theorem scanStep_of_scanEnd {scan : Scan} {last : List Token} (hend : scanEnd scan = some last)
    {p : Char} {t : Token} (hp : punctuation p = some t) :
    scanStep scan p = some (.between, last ++ [t]) := by
  cases scan with
  | between =>
      cases hend
      simpa [scanStep] using scanBetween_of_punctuation hp
  | word cs =>
      obtain ⟨v, hv, rfl⟩ := Option.map_eq_some_iff.mp hend
      simp [scanStep, isWordChar_of_punctuation hp, hv, scanBetween_of_punctuation hp]
  | string | escape | unicode | pair | pairEscape => cases hend

theorem tokens_eq_some {cs : List Char} {ts : List Token} :
    tokens cs = some ts ↔ ∃ scan ts₁ last, exec scanStep .between cs = some (scan, ts₁) ∧
      scanEnd scan = some last ∧ ts = ts₁ ++ last := by
  unfold tokens
  constructor
  · intro h
    split at h
    · cases h
    · next scan ts₁ hexec =>
        obtain ⟨last, hlast, rfl⟩ := Option.map_eq_some_iff.mp h
        exact ⟨scan, ts₁, last, hexec, hlast, rfl⟩
  · rintro ⟨scan, ts₁, last, hexec, hlast, rfl⟩
    simp [hexec, hlast]

/-- A complete text, punctuation and whatever comes then. -/
theorem tokens_append {cs ds : List Char} {ts ts' : List Token} (hcs : tokens cs = some ts)
    {p : Char} {t : Token} (hp : punctuation p = some t) (hds : tokens ds = some ts') :
    tokens (cs ++ p :: ds) = some (ts ++ t :: ts') := by
  obtain ⟨scan, ts₁, last, hexec, hend, rfl⟩ := tokens_eq_some.mp hcs
  obtain ⟨scan', ts₂, last', hexec', hend', rfl⟩ := tokens_eq_some.mp hds
  have hstep := scanStep_of_scanEnd hend hp
  refine tokens_eq_some.mpr ⟨scan', ts₁ ++ (last ++ [t] ++ ts₂), last', ?_, hend', by simp⟩
  exact exec_append_of_some hexec (by simp [exec, hstep, hexec'])

theorem tokens_cons {ds : List Char} {ts : List Token} {p : Char} {t : Token}
    (hp : punctuation p = some t) (hds : tokens ds = some ts) :
    tokens (p :: ds) = some (t :: ts) :=
  @tokens_append [] _ _ _ rfl _ _ hp hds

/-- A blank after the text does not count. -/
theorem tokens_append_blank {cs : List Char} {ts : List Token} (hcs : tokens cs = some ts)
    {c : Char} (hc : isWhitespace c = true) : tokens (cs ++ [c]) = some ts := by
  obtain ⟨scan, ts₁, last, hexec, hend, rfl⟩ := tokens_eq_some.mp hcs
  have hblank : scanBetween c = some (.between, []) := by simp [scanBetween, hc]
  have hstep : scanStep scan c = some (.between, last) := by
    cases scan with
    | between =>
        cases hend
        exact hblank
    | word ds =>
        obtain ⟨v, hv, rfl⟩ := Option.map_eq_some_iff.mp hend
        simp [scanStep, isWordChar, hc, hv, hblank]
    | string | escape | unicode | pair | pairEscape => cases hend
  exact tokens_eq_some.mpr ⟨.between, ts₁ ++ last, [],
    exec_append_of_some hexec (by simp [exec, hstep]), rfl, by simp⟩

/-! ## Strings -/

theorem value_hexDigit {v : Nat} (h : v < 16) : Base16.value (Base16.digit v) = some v :=
  Base16.value_digit ⟨v, h⟩

/-- The scanner takes what stands for a character as that character. -/
theorem exec_escape (c : Char) (acc : List Char) :
    exec scanStep (.string acc) (escape c) = some (.string (acc ++ [c]), []) := by
  by_cases hsimple : c = '"' ∨ c = '\\' ∨ c = '\x08' ∨ c = '\x0c' ∨ c = '\n' ∨ c = '\r' ∨ c = '\t'
  · rcases hsimple with rfl | rfl | rfl | rfl | rfl | rfl | rfl <;> rfl
  · simp only [not_or] at hsimple
    obtain ⟨hquote, hslash, hb, hf, hn, hr, ht⟩ := hsimple
    by_cases hctl : c.toNat < 0x20
    · have hesc : escape c = ['\\', 'u', '0', '0', Base16.digit (c.toNat / 16),
          Base16.digit (c.toNat % 16)] := by
        simp [escape, hquote, hslash, hb, hf, hn, hr, ht, hctl]
      have hzero : Base16.value '0' = some 0 := by decide
      have hhigh := value_hexDigit (v := c.toNat / 16) (by omega)
      have hlow := value_hexDigit (v := c.toNat % 16) (by omega)
      have hvalue : 16 * (c.toNat / 16) + c.toNat % 16 = c.toNat := by omega
      have hunit : codeUnit acc c.toNat none = some (.string (acc ++ [c])) := by
        simp [codeUnit, show ¬ 0xD800 ≤ c.toNat by omega, show ¬ 0xDC00 ≤ c.toNat by omega]
      simp [hesc, exec, scanStep, hzero, hhigh, hlow, hvalue, hunit]
    · have hesc : escape c = [c] := by
        simp [escape, hquote, hslash, hb, hf, hn, hr, ht, hctl]
      simp [hesc, exec, scanStep, hquote, hslash, hctl]

theorem exec_escapes (cs acc : List Char) :
    exec scanStep (.string acc) (cs.flatMap escape) = some (.string (acc ++ cs), []) := by
  induction cs generalizing acc with
  | nil => simp [exec]
  | cons c cs ih =>
      have hstep := exec_append_of_some (exec_escape c acc) (ih (acc ++ [c]))
      simpa using hstep

theorem tokens_writeString (s : String) : tokens (writeString s) = some [.string s.toList] := by
  have hopen : exec scanStep .between ['"'] = some (.string [], []) := rfl
  have hclose : exec scanStep (.string s.toList) ['"'] = some (.between, [.string s.toList]) := by
    simp [exec, scanStep]
  have hbody := exec_append_of_some (exec_escapes s.toList []) hclose
  exact tokens_eq_some.mpr ⟨.between, [.string s.toList], [],
    exec_append_of_some hopen hbody, rfl, rfl⟩

/-! ## Numbers -/

def isNumberChar (c : Char) : Bool :=
  c.isDigit || c == '-' || c == '+' || c == '.' || c == 'e' || c == 'E'

theorem isNumberChar_of_isDigit {c : Char} (h : c.isDigit = true) : isNumberChar c = true := by
  simp [isNumberChar, h]

theorem isWordChar_of_isNumberChar {c : Char} (h : isNumberChar c = true) :
    isWordChar c = true := by
  simp only [isNumberChar, Bool.or_eq_true, beq_iff_eq, or_assoc] at h
  rcases h with h | rfl | rfl | rfl | rfl | rfl
  · exact isWordChar_of_isDigit h
  all_goals rfl

theorem numberChars_of_isDigits {cs : List Char} (h : isDigits cs = true) :
    ∀ c ∈ cs, isNumberChar c = true := by
  simp only [isDigits, Bool.and_eq_true, List.all_eq_true] at h
  exact fun c hc => isNumberChar_of_isDigit (h.1 c hc)

theorem numberChars_of_isExponent {cs : List Char} (h : isExponent cs = true) :
    ∀ c ∈ cs, isNumberChar c = true := by
  have hletter : ∀ {e : Char}, (e == 'e' || e == 'E') = true → isNumberChar e = true := by
    intro e he
    rcases Bool.or_eq_true_iff.mp he with he | he <;> simp [isNumberChar, he]
  unfold isExponent at h
  split at h <;>
    simp only [Bool.and_eq_true, List.forall_mem_cons, List.not_mem_nil, false_implies,
      implies_true] at h ⊢
  · exact ⟨hletter h.1, rfl, numberChars_of_isDigits h.2⟩
  · exact ⟨hletter h.1, rfl, numberChars_of_isDigits h.2⟩
  · exact ⟨hletter h.1, numberChars_of_isDigits h.2⟩

/-- Digits and then number characters are number characters. -/
theorem numberChars_of_dropWhile {cs : List Char}
    (h : ∀ c ∈ cs.dropWhile Char.isDigit, isNumberChar c = true) :
    ∀ c ∈ cs, isNumberChar c = true := by
  intro c hc
  rw [← List.takeWhile_append_dropWhile (p := Char.isDigit) (l := cs)] at hc
  rcases List.mem_append.mp hc with hc | hc
  · exact isNumberChar_of_isDigit (List.mem_takeWhile_imp hc)
  · exact h c hc

theorem numberChars_of_isFraction {cs : List Char} (h : isFraction cs = true) :
    ∀ c ∈ cs, isNumberChar c = true := by
  unfold isFraction at h
  split at h
  · obtain ⟨-, hexp⟩ := Bool.and_eq_true_iff.mp h
    exact List.forall_mem_cons.mpr
      ⟨rfl, numberChars_of_dropWhile (numberChars_of_isExponent hexp)⟩
  · exact numberChars_of_isExponent h

/-- What follows the integer part of a number. -/
theorem isFraction_of_number {cs : List Char} {n : JsonNumber} (h : number cs = some n) :
    isFraction ((if cs.head? == some '-' then cs.tail else cs).dropWhile Char.isDigit) = true := by
  by_contra hfraction
  simp only [number, Bool.and_eq_true, hfraction, and_false, if_false] at h
  cases h

theorem numberChars_of_number {cs : List Char} {n : JsonNumber} (h : number cs = some n) :
    ∀ c ∈ cs, isNumberChar c = true := by
  have hrest := numberChars_of_dropWhile (numberChars_of_isFraction (isFraction_of_number h))
  cases cs with
  | nil => simp
  | cons c cs =>
      by_cases hc : c = '-'
      · subst hc
        exact List.forall_mem_cons.mpr ⟨rfl, by simpa using hrest⟩
      · simpa [hc] using hrest

theorem ne_nil_of_number {cs : List Char} {n : JsonNumber} (h : number cs = some n) :
    cs ≠ [] := by
  rintro rfl
  cases h

theorem scalar_of_number {cs : List Char} {n : JsonNumber} (h : number cs = some n) :
    scalar cs = some (.number n) := by
  have hname : ∀ name : List Char, number name = none → cs ≠ name := by
    rintro name hname rfl
    rw [h] at hname
    cases hname
  rw [scalar, if_neg (hname _ rfl), if_neg (hname _ rfl), if_neg (hname _ rfl), h]
  rfl

/-- A negative integer of `i64` is read from its sign and digits. -/
theorem number_negInt {n : Int} (hlow : -(2 ^ 63) ≤ n) (hneg : n < 0) :
    number ('-' :: Nat.toDigits 10 n.natAbs) = some (.negInt n) := by
  have hdigits : ∀ c ∈ Nat.toDigits 10 n.natAbs, c.isDigit = true := fun c hc =>
    Nat.isDigit_of_mem_toDigits (by omega) (by omega) hc
  have htake : (Nat.toDigits 10 n.natAbs).takeWhile Char.isDigit = Nat.toDigits 10 n.natAbs :=
    List.takeWhile_eq_self_iff.mpr hdigits
  have hdrop : (Nat.toDigits 10 n.natAbs).dropWhile Char.isDigit = [] :=
    List.dropWhile_eq_nil_iff.mpr hdigits
  have hrange : n.natAbs ≤ 9223372036854775808 := by omega
  have habs : -(n.natAbs : Int) = n := by omega
  have hnumber : number ('-' :: Nat.toDigits 10 n.natAbs)
      = some (.negInt (-(n.natAbs : Int))) := by
    simp [number, htake, hdrop, isInt_toDigits, isFraction, isExponent, hrange,
      show n ≠ 0 by omega]
  rw [hnumber, habs]

theorem scalar_writeNumber {n : JsonNumber} (h : WellFormed (.number n)) :
    scalar (writeNumber n) = some (.number n) := by
  cases h with
  | posInt n => exact scalar_toDigits n
  | negInt hlow hneg => exact scalar_of_number (number_negInt hlow hneg)
  | float h => exact scalar_of_number h

theorem numberChars_of_writeNumber {n : JsonNumber} (h : WellFormed (.number n)) :
    ∀ c ∈ writeNumber n, isNumberChar c = true := by
  cases h with
  | posInt n =>
      exact fun c hc =>
        isNumberChar_of_isDigit (Nat.isDigit_of_mem_toDigits (by omega) (by omega) hc)
  | negInt hlow hneg => exact numberChars_of_number (number_negInt hlow hneg)
  | float h => exact numberChars_of_number h

theorem writeNumber_ne_nil {n : JsonNumber} (h : WellFormed (.number n)) :
    writeNumber n ≠ [] := by
  cases h with
  | posInt n => exact Nat.toDigits_ne_nil
  | negInt hlow hneg => exact List.cons_ne_nil _ _
  | float h => exact ne_nil_of_number h

/-- A scalar by itself. -/
theorem tokens_word {cs : List Char} {v : Json} (hne : cs ≠ [])
    (hword : ∀ c ∈ cs, isWordChar c = true) (h : scalar cs = some v) :
    tokens cs = some [.scalar v] :=
  tokens_eq_some.mpr
    ⟨.word cs, [], [.scalar v], exec_between_word hne hword, by simp [scanEnd, h], rfl⟩

theorem tokens_writeNumber {n : JsonNumber} (h : WellFormed (.number n)) :
    tokens (writeNumber n) = some [.scalar (.number n)] :=
  tokens_word (writeNumber_ne_nil h)
    (fun c hc => isWordChar_of_isNumberChar (numberChars_of_writeNumber h c hc))
    (scalar_writeNumber h)

/-! ## What the scanner makes of a value -/

/-- The elements that are left follow a complete text. -/
theorem tokens_writeElements {xs : List Json}
    (h : ∀ x ∈ xs, tokens (write x) = some (spell x)) {cs : List Char} {ts : List Token}
    (hcs : tokens cs = some ts) :
    tokens (cs ++ writeElements false xs) = some (ts ++ spellElements false xs) := by
  induction xs generalizing cs ts with
  | nil => exact tokens_append hcs rfl rfl
  | cons x xs ih =>
      obtain ⟨hx, hxs⟩ := List.forall_mem_cons.mp h
      simpa [writeElements, spellElements, separator, separatorToken]
        using tokens_append hcs rfl (ih hxs hx)

theorem tokens_writeFields {fields : List (String × Json)}
    (h : ∀ f ∈ fields, tokens (write f.2) = some (spell f.2)) {cs : List Char} {ts : List Token}
    (hcs : tokens cs = some ts) :
    tokens (cs ++ writeFields false fields) = some (ts ++ spellFields false fields) := by
  induction fields generalizing cs ts with
  | nil => exact tokens_append hcs rfl rfl
  | cons f fields ih =>
      obtain ⟨key, v⟩ := f
      obtain ⟨hv, hfields⟩ := List.forall_mem_cons.mp h
      have hmember := tokens_append (tokens_writeString key) (p := ':') rfl hv
      simpa [writeFields, spellFields, separator, separatorToken]
        using tokens_append hcs rfl (ih hfields hmember)

/-- The scanner makes the tokens of the value. -/
theorem tokens_write {v : Json} (h : WellFormed v) : tokens (write v) = some (spell v) := by
  induction h with
  | null => rfl
  | bool b => cases b <;> rfl
  | posInt n => exact tokens_writeNumber (.posInt n)
  | negInt hlow hneg => exact tokens_writeNumber (.negInt hlow hneg)
  | float h => exact tokens_writeNumber (.float h)
  | string s => exact tokens_writeString s
  | @array xs h ih =>
      cases xs with
      | nil => rfl
      | cons x xs =>
          obtain ⟨hx, hxs⟩ := List.forall_mem_cons.mp ih
          exact tokens_cons (p := '[') rfl (tokens_writeElements hxs hx)
  | @object fields hkeys h ih =>
      cases fields with
      | nil => rfl
      | cons f fields =>
          obtain ⟨key, v⟩ := f
          obtain ⟨hv, hfields⟩ := List.forall_mem_cons.mp ih
          have hmember := tokens_append (tokens_writeString key) (p := ':') rfl hv
          exact tokens_cons (p := '\x7b') rfl (tokens_writeFields hfields hmember)

/-! ## What the reader makes of the tokens -/

section Read

variable {stack : List Frame}

/-- The tokens of a value are read as that value, whatever is open. -/
def Reads (v : Json) : Prop :=
  ∀ stack : List Frame, (spell v).foldlM readStep (.value stack) = some (.complete stack v)

/-- A value does not begin with a closing bracket. -/
theorem spell_head (v : Json) : ∃ t ts, spell v = t :: ts ∧ t ≠ .rbracket := by
  cases v <;> exact ⟨_, _, rfl, by simp⟩

/-- After `[` an element is read as anywhere else. -/
theorem read_firstElement {v : Json} (h : Reads v) :
    (spell v).foldlM readStep (.elements stack)
      = some (.complete (.array [] :: stack) v) := by
  obtain ⟨t, ts, hspell, ht⟩ := spell_head v
  have hstep : readStep (.elements stack) t = readStep (.value (.array [] :: stack)) t := by
    cases t <;> first | rfl | exact absurd rfl ht
  have hread := h (.array [] :: stack)
  rw [hspell, List.foldlM_cons] at hread ⊢
  rw [hstep]
  exact hread

theorem read_append {v : Json} (h : Reads v) (ts : List Token) :
    (spell v ++ ts).foldlM readStep (.value stack)
      = ts.foldlM readStep (.complete stack v) := by
  simp [List.foldlM_append, h stack]

theorem read_elements {xs : List Json} (h : ∀ x ∈ xs, Reads x) (ys : List Json) (v : Json) :
    (spellElements false xs).foldlM readStep (.complete (.array ys :: stack) v)
      = some (.complete stack (.array (ys ++ v :: xs))) := by
  induction xs generalizing ys v with
  | nil => rfl
  | cons x xs ih =>
      obtain ⟨hx, hxs⟩ := List.forall_mem_cons.mp h
      have hcomma : (spellElements false (x :: xs)).foldlM readStep
            (.complete (.array ys :: stack) v)
          = (spell x ++ spellElements false xs).foldlM readStep
              (.value (.array (ys ++ [v]) :: stack)) := rfl
      rw [hcomma, read_append hx, ih hxs]
      simp

theorem setField_of_notMem {key : String} {v : Json} {fields : List (String × Json)}
    (h : key ∉ fields.map Prod.fst) : setField key v fields = fields ++ [(key, v)] := by
  induction fields with
  | nil => rfl
  | cons f fields ih =>
      obtain ⟨k, w⟩ := f
      simp only [List.map_cons, List.mem_cons, not_or] at h
      simp [setField, Ne.symm h.1, ih h.2]

theorem setField_of_nodup {done fields : List (String × Json)} {key : String} {v : Json}
    (hkeys : ((done ++ (key, v) :: fields).map Prod.fst).Nodup) :
    setField key v done = done ++ [(key, v)] := by
  refine setField_of_notMem fun hmem => ?_
  rw [List.map_append, List.nodup_append] at hkeys
  exact hkeys.2.2 key hmem key (by simp) rfl

theorem read_member {key : String} {v : Json} (h : Reads v) {fields : List (String × Json)}
    {first : Bool} (ts : List Token) :
    (.string key.toList :: .colon :: (spell v ++ ts)).foldlM readStep
        (.members stack fields first)
      = ts.foldlM readStep (.complete (.object fields key :: stack) v) := by
  have hname : (.string key.toList :: .colon :: (spell v ++ ts)).foldlM readStep
        (.members stack fields first)
      = (spell v ++ ts).foldlM readStep
          (.value (.object fields (String.ofList key.toList) :: stack)) := rfl
  rw [hname, String.ofList_toList, read_append h]

theorem read_fields {fields : List (String × Json)} (h : ∀ f ∈ fields, Reads f.2)
    {done : List (String × Json)} {key : String} {v : Json}
    (hkeys : ((done ++ (key, v) :: fields).map Prod.fst).Nodup) :
    (spellFields false fields).foldlM readStep (.complete (.object done key :: stack) v)
      = some (.complete stack (.object (done ++ (key, v) :: fields))) := by
  induction fields generalizing done key v with
  | nil => simp [spellFields, readStep, setField_of_nodup hkeys]
  | cons f fields ih =>
      obtain ⟨k, w⟩ := f
      obtain ⟨hw, hfields⟩ := List.forall_mem_cons.mp h
      have hcomma : (spellFields false ((k, w) :: fields)).foldlM readStep
            (.complete (.object done key :: stack) v)
          = (.string k.toList :: .colon :: (spell w ++ spellFields false fields)).foldlM readStep
              (.members stack (setField key v done) false) := by
        simp [spellFields, separatorToken, readStep]
      have hkeys' : (((done ++ [(key, v)]) ++ (k, w) :: fields).map Prod.fst).Nodup := by
        simpa using hkeys
      rw [hcomma, setField_of_nodup hkeys, read_member hw, ih hfields hkeys']
      simp

theorem reads_of_wellFormed {v : Json} (h : WellFormed v) : Reads v := by
  intro stack
  induction h generalizing stack with
  | null | bool | posInt | negInt | float => rfl
  | string s => simp [spell, readStep, readValue]
  | @array xs h ih =>
      cases xs with
      | nil => rfl
      | cons x xs =>
          obtain ⟨hx, hxs⟩ := List.forall_mem_cons.mp ih
          have hopen : (spell (.array (x :: xs))).foldlM readStep (.value stack)
              = (spell x ++ spellElements false xs).foldlM readStep (.elements stack) := rfl
          rw [hopen, List.foldlM_append, read_firstElement hx]
          exact read_elements hxs [] x
  | @object fields hkeys h ih =>
      cases fields with
      | nil => rfl
      | cons f fields =>
          obtain ⟨key, v⟩ := f
          obtain ⟨hv, hfields⟩ := List.forall_mem_cons.mp ih
          have hopen : (spell (.object ((key, v) :: fields))).foldlM readStep (.value stack)
              = (.string key.toList :: .colon :: (spell v ++ spellFields false fields)).foldlM
                  readStep (.members stack [] true) := rfl
          rw [hopen, read_member hv]
          exact read_fields hfields hkeys

end Read

theorem readTokens_spell {v : Json} (h : WellFormed v) : readTokens (spell v) = some v := by
  simp [readTokens, reads_of_wellFormed h []]

/-! ## The characters of a text -/

/-- The character is no control character, so no line ends at it. -/
def Visible (c : Char) : Prop := 0x20 ≤ c.toNat

instance (c : Char) : Decidable (Visible c) := Nat.decLe _ _

theorem visible_hexDigit : ∀ v : Fin 16, Visible (Base16.digit v) := by decide

theorem visible_escape (c : Char) : ∀ d ∈ escape c, Visible d := by
  unfold escape
  split_ifs with hquote hslash hb hf hn hr ht hctl
  iterate 7 simp only [List.forall_mem_cons, List.not_mem_nil, false_implies, implies_true]; decide
  · have hhigh := visible_hexDigit ⟨c.toNat / 16, by omega⟩
    have hlow := visible_hexDigit ⟨c.toNat % 16, by omega⟩
    simp only [List.forall_mem_cons, List.not_mem_nil, false_implies, implies_true, and_true]
    exact ⟨by decide, by decide, by decide, by decide, hhigh, hlow⟩
  · exact List.forall_mem_singleton.mpr (Nat.le_of_not_lt hctl)

theorem visible_writeString (s : String) : ∀ c ∈ writeString s, Visible c := by
  have hbody : ∀ c ∈ s.toList.flatMap escape, Visible c := fun c hc => by
    obtain ⟨d, -, hcd⟩ := List.mem_flatMap.mp hc
    exact visible_escape d c hcd
  simp only [writeString, List.cons_append, List.forall_mem_cons, List.forall_mem_append]
  exact ⟨by decide, hbody, by decide, fun _ hc => by cases hc⟩

theorem visible_of_isNumberChar {c : Char} (h : isNumberChar c = true) : Visible c := by
  simp only [isNumberChar, Bool.or_eq_true, beq_iff_eq, or_assoc] at h
  rcases h with h | rfl | rfl | rfl | rfl | rfl
  · have hdigit : '0'.toNat ≤ c.toNat := (Char.isDigit_iff_toNat.mp h).1
    exact Nat.le_trans (by decide) hdigit
  all_goals decide

theorem visible_separator (first : Bool) : ∀ c ∈ separator first, Visible c := by
  cases first with
  | false => exact List.forall_mem_singleton.mpr (by decide)
  | true => exact fun _ hc => by cases hc

theorem visible_writeElements {xs : List Json} (h : ∀ x ∈ xs, ∀ c ∈ write x, Visible c)
    (first : Bool) : ∀ c ∈ writeElements first xs, Visible c := by
  induction xs generalizing first with
  | nil => exact List.forall_mem_singleton.mpr (by decide)
  | cons x xs ih =>
      obtain ⟨hx, hxs⟩ := List.forall_mem_cons.mp h
      simp only [writeElements, List.forall_mem_append]
      exact ⟨⟨visible_separator first, hx⟩, ih hxs false⟩

theorem visible_writeFields {fields : List (String × Json)}
    (h : ∀ f ∈ fields, ∀ c ∈ write f.2, Visible c) (first : Bool) :
    ∀ c ∈ writeFields first fields, Visible c := by
  induction fields generalizing first with
  | nil => exact List.forall_mem_singleton.mpr (by decide)
  | cons f fields ih =>
      obtain ⟨key, v⟩ := f
      obtain ⟨hv, hfields⟩ := List.forall_mem_cons.mp h
      simp only [writeFields, List.forall_mem_append, List.forall_mem_cons]
      exact ⟨⟨visible_separator first, visible_writeString key, by decide, hv⟩, ih hfields false⟩

theorem visible_write {v : Json} (h : WellFormed v) : ∀ c ∈ write v, Visible c := by
  have hnumber : ∀ {n : JsonNumber}, WellFormed (.number n) →
      ∀ c ∈ writeNumber n, Visible c := fun hn c hc =>
    visible_of_isNumberChar (numberChars_of_writeNumber hn c hc)
  induction h with
  | null => simp [write, Visible]
  | bool b => cases b <;> simp [write, Visible]
  | posInt n => exact hnumber (.posInt n)
  | negInt hlow hneg => exact hnumber (.negInt hlow hneg)
  | float h => exact hnumber (.float h)
  | string s => exact visible_writeString s
  | array _ ih => exact List.forall_mem_cons.mpr ⟨by decide, visible_writeElements ih true⟩
  | object _ _ ih => exact List.forall_mem_cons.mpr ⟨by decide, visible_writeFields ih true⟩

/-! ## Maps -/

@[simp] theorem lookup_insertField (key k : String) (v : Json) (map : List (String × Json)) :
    Json.lookup key (insertField k v map)
      = if k = key then some v else Json.lookup key map := by
  induction map with
  | nil => simp [insertField, Json.lookup]
  | cons f map ih =>
      obtain ⟨k', w⟩ := f
      by_cases hlt : k.toList < k'.toList
      · simp [insertField, hlt, Json.lookup]
      · by_cases heq : k = k'
        · subst heq
          simp only [insertField, if_neg hlt, if_true, Json.lookup]
          split <;> rfl
        · simp only [insertField, if_neg hlt, if_neg heq, Json.lookup, ih]
          split_ifs with hk' hk
          · exact absurd (hk.trans hk'.symm) heq
          all_goals rfl

theorem mem_insertField {key : String} {v : Json} {map : List (String × Json)}
    {f : String × Json} (h : f ∈ insertField key v map) : f = (key, v) ∨ f ∈ map := by
  induction map with
  | nil => exact Or.inl (List.mem_singleton.mp h)
  | cons g map ih =>
      simp only [insertField] at h
      split_ifs at h
      · exact List.mem_cons.mp h
      · exact (List.mem_cons.mp h).imp id (List.mem_cons_of_mem _)
      · rcases List.mem_cons.mp h with rfl | h
        · exact Or.inr List.mem_cons_self
        · exact (ih h).imp id (List.mem_cons_of_mem _)

/-- The keys are in ascending order. -/
def Ascending (map : List (String × Json)) : Prop :=
  map.Pairwise fun f g => f.1.toList < g.1.toList

theorem ascending_insertField {key : String} {v : Json} {map : List (String × Json)}
    (h : Ascending map) : Ascending (insertField key v map) := by
  induction map with
  | nil => exact List.pairwise_singleton _ _
  | cons f map ih =>
      obtain ⟨hf, hmap⟩ := List.pairwise_cons.mp h
      simp only [insertField]
      split_ifs with hlt heq
      · refine List.pairwise_cons.mpr ⟨fun g hg => ?_, h⟩
        rcases List.mem_cons.mp hg with rfl | hg
        · exact hlt
        · exact lt_trans hlt (hf g hg)
      · exact List.pairwise_cons.mpr ⟨fun g hg => heq ▸ hf g hg, hmap⟩
      · refine List.pairwise_cons.mpr ⟨fun g hg => ?_, ih hmap⟩
        rcases mem_insertField hg with rfl | hg
        · have hne : key.toList ≠ f.1.toList := fun h => heq (String.toList_inj.mp h)
          exact lt_of_le_of_ne (not_lt.mp hlt) hne.symm
        · exact hf g hg

theorem nodup_of_ascending {map : List (String × Json)} (h : Ascending map) :
    (map.map Prod.fst).Nodup := by
  refine List.pairwise_map.mpr (h.imp fun hlt heq => ?_)
  rw [heq] at hlt
  exact lt_irrefl _ hlt

theorem ascending_orderedFields {map : List (String × Json)} (h : Ascending map)
    (fields : List (String × Json)) : Ascending (orderedFields map fields) := by
  induction fields generalizing map with
  | nil => exact h
  | cons f fields ih => exact ih (ascending_insertField h)

theorem wellFormed_orderedFields {map fields : List (String × Json)}
    (hmap : ∀ f ∈ map, WellFormed f.2) (hfields : ∀ f ∈ fields, WellFormed (ordered f.2)) :
    ∀ f ∈ orderedFields map fields, WellFormed f.2 := by
  induction fields generalizing map with
  | nil => exact hmap
  | cons f fields ih =>
      obtain ⟨hf, hrest⟩ := List.forall_mem_cons.mp hfields
      refine ih (fun g hg => ?_) hrest
      rcases mem_insertField hg with rfl | hg
      · exact hf
      · exact hmap g hg

theorem orderedElements_eq_map (xs : List Json) : orderedElements xs = xs.map ordered := by
  induction xs with
  | nil => rfl
  | cons x xs ih => simp [orderedElements, ih]

theorem wellFormed_ordered {v : Json} (h : WellFormed v) : WellFormed (ordered v) := by
  induction h with
  | null => exact .null
  | bool b => exact .bool b
  | posInt n => exact .posInt n
  | negInt hlow hneg => exact .negInt hlow hneg
  | float h => exact .float h
  | string s => exact .string s
  | array _ ih =>
      rw [ordered, orderedElements_eq_map]
      exact .array (List.forall_mem_map.mpr ih)
  | object _ _ ih =>
      exact .object (nodup_of_ascending (ascending_orderedFields List.Pairwise.nil _))
        (wellFormed_orderedFields (by simp) ih)

theorem lookup_eq_none {key : String} {fields : List (String × Json)}
    (h : key ∉ fields.map Prod.fst) : Json.lookup key fields = none := by
  by_contra hsome
  obtain ⟨v, hv⟩ := Option.ne_none_iff_exists'.mp hsome
  exact h (List.mem_map.mpr ⟨(key, v), mem_of_lookup hv, rfl⟩)

theorem lookup_orderedFields {fields : List (String × Json)}
    (hkeys : (fields.map Prod.fst).Nodup) (key : String) (map : List (String × Json)) :
    Json.lookup key (orderedFields map fields)
      = ((Json.lookup key fields).map ordered).or (Json.lookup key map) := by
  induction fields generalizing map with
  | nil => rfl
  | cons f fields ih =>
      obtain ⟨k, v⟩ := f
      obtain ⟨hk, hrest⟩ := List.nodup_cons.mp hkeys
      rw [orderedFields, ih hrest, lookup_insertField, Json.lookup]
      by_cases heq : k = key
      · subst heq
        simp [lookup_eq_none hk]
      · simp [heq]

/-- The map has the same fields. -/
theorem get_ordered {v : Json} (h : WellFormed v) (key : String) :
    (ordered v).get key = (v.get key).map ordered := by
  cases h with
  | null | bool | posInt | negInt | float | string | array => rfl
  | object hkeys _ =>
      simpa [ordered, Json.get, Json.lookup] using lookup_orderedFields hkeys key []

/-! ## The round trip -/

theorem tokens_toText {v : Json} (h : WellFormed v) :
    tokens (toText v).toList = some (spell (ordered v)) := by
  rw [toText, String.toList_ofList]
  exact tokens_write (wellFormed_ordered h)

theorem read_toText {v : Json} (h : WellFormed v) : read (toText v) = some (ordered v) := by
  rw [read, tokens_toText h]
  exact readTokens_spell (wellFormed_ordered h)

/-- A line that holds a written value. -/
theorem read_toText_newline {v : Json} (h : WellFormed v) :
    read (toText v ++ "\n") = some (ordered v) := by
  have htokens : tokens ((toText v).toList ++ "\n".toList) = some (spell (ordered v)) :=
    tokens_append_blank (tokens_toText h) rfl
  rw [read, String.toList_append, htokens]
  exact readTokens_spell (wellFormed_ordered h)

theorem visible_toText {v : Json} (h : WellFormed v) : ∀ c ∈ (toText v).toList, Visible c := by
  rw [toText, String.toList_ofList]
  exact visible_write (wellFormed_ordered h)

end LiteXmr.JsonText
