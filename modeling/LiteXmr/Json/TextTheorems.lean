/-
LiteXmr.Json.TextTheorems — what a JSON text can say about the strings it
spells.

* `exec_string` — characters that need no escape (`Plain`) stand for
  themselves inside a string.
* `region_of_run` — a stretch of text that begins inside a string: it is that
  string's own content, or else it contains a quote or a backslash and every
  string that lies in it is shorter than the stretch.
* `exec_member` — text of the form `","key":"` (`nextMember`) with a key that
  is no scalar is only ever accepted as the end of a string, a member name and
  the beginning of another string.
* `mem_tokens_of_read` — every string in the value of a text is one of its
  tokens.
-/
import Mathlib.Data.List.TakeWhile
import LiteXmr.Json.Text

namespace LiteXmr.JsonText

open Lts

/-! ## Characters that need no escape -/

/-- The characters that stand for themselves inside a string. -/
def Plain (cs : List Char) : Prop := ∀ c ∈ cs, c ≠ '"' ∧ c ≠ '\\' ∧ 0x20 ≤ c.toNat

instance (cs : List Char) : Decidable (Plain cs) := List.decidableBAll _ cs

theorem plain_append {cs ds : List Char} : Plain (cs ++ ds) ↔ Plain cs ∧ Plain ds :=
  List.forall_mem_append

theorem plain_singleton {c : Char} : Plain [c] ↔ c ≠ '"' ∧ c ≠ '\\' ∧ 0x20 ≤ c.toNat :=
  List.forall_mem_singleton

theorem exec_string {cs : List Char} (h : Plain cs) (acc : List Char) :
    exec scanStep (.string acc) cs = some (.string (acc ++ cs), []) := by
  induction cs generalizing acc with
  | nil => simp [exec]
  | cons c cs ih =>
      obtain ⟨hquote, hslash, hctl⟩ := h c (by simp)
      have hrest := ih (fun d hd => h d (by simp [hd])) (acc ++ [c])
      simp [exec, scanStep, hquote, hslash, Nat.not_lt.mpr hctl, hrest]

/-- The characters of a number or a literal name go on with it. -/
theorem exec_word {cs : List Char} (h : ∀ c ∈ cs, isWordChar c = true) (acc : List Char) :
    exec scanStep (.word acc) cs = some (.word (acc ++ cs), []) := by
  induction cs generalizing acc with
  | nil => simp [exec]
  | cons c cs ih =>
      have hrest := ih (fun d hd => h d (by simp [hd])) (acc ++ [c])
      simp [exec, scanStep, h c (by simp), hrest]

theorem scanBetween_of_isWordChar {c : Char} (h : isWordChar c = true) :
    scanBetween c = some (.word [c], []) := by
  simp only [isWordChar, Bool.and_eq_true, Bool.not_eq_true', bne_iff_ne, ne_eq,
    Option.isNone_iff_eq_none] at h
  simp [scanBetween, h.1.1, h.1.2, h.2]

/-- A number or a literal name begins between tokens. -/
theorem exec_between_word {cs : List Char} (hne : cs ≠ [])
    (h : ∀ c ∈ cs, isWordChar c = true) :
    exec scanStep .between cs = some (.word cs, []) := by
  cases cs with
  | nil => exact absurd rfl hne
  | cons c cs =>
      have hc : scanStep .between c = some (.word [c], []) :=
        scanBetween_of_isWordChar (h c (by simp))
      have hrest := exec_word (fun d hd => h d (List.mem_cons_of_mem c hd)) [c]
      simp [exec, hc, hrest]

/-! ## Natural numbers -/

theorem isWordChar_of_isDigit {c : Char} (h : c.isDigit = true) : isWordChar c = true := by
  have hne : ∀ d : Char, d.isDigit = false → c ≠ d := by
    rintro d hd rfl
    rw [h] at hd
    cases hd
  have hp : punctuation c = none := by
    unfold punctuation
    split <;> first | rfl | exact absurd rfl (hne _ (by decide))
  simp [isWordChar, isWhitespace, hp, hne ' ' (by decide), hne '\t' (by decide),
    hne '\n' (by decide), hne '\r' (by decide), hne '"' (by decide)]

theorem head?_toDigits {n : Nat} (hn : 0 < n) : (Nat.toDigits 10 n).head? ≠ some '0' := by
  induction n using Nat.strongRecOn with
  | _ n ih =>
      rw [Nat.toDigits_eq_if (by omega)]
      split
      · next hlt =>
          have hdigit : ∀ k < 10, 0 < k → Nat.digitChar k ≠ '0' := by decide
          simpa using hdigit n hlt hn
      · next hge =>
          have hhead := ih (n / 10) (by omega) (by omega)
          rwa [List.head?_append_of_ne_nil _ Nat.toDigits_ne_nil]

theorem isInt_toDigits (n : Nat) : isInt (Nat.toDigits 10 n) = true := by
  have hall : (Nat.toDigits 10 n).all Char.isDigit = true :=
    List.all_eq_true.mpr fun c hc => Nat.isDigit_of_mem_toDigits (by omega) (by omega) hc
  have hzero : (Nat.toDigits 10 n).length = 1 ∨ (Nat.toDigits 10 n).head? ≠ some '0' := by
    rcases Nat.eq_zero_or_pos n with rfl | hn
    · exact Or.inl rfl
    · exact Or.inr (head?_toDigits hn)
  simpa [isInt, hall] using hzero

/-- The decimal digits of a number that fits `u64` are read as that number. -/
theorem scalar_toDigits (n : UInt64) :
    scalar (Nat.toDigits 10 n.toNat) = some (.number (.posInt n)) := by
  have hdigits : ∀ c ∈ Nat.toDigits 10 n.toNat, c.isDigit = true := fun c hc =>
    Nat.isDigit_of_mem_toDigits (by omega) (by omega) hc
  have hname : ∀ c cs, c.isDigit = false → Nat.toDigits 10 n.toNat ≠ c :: cs := by
    intro c cs hc heq
    have := hdigits c (by simp [heq])
    rw [hc] at this
    cases this
  have hneg : ((Nat.toDigits 10 n.toNat).head? == some '-') = false := by
    cases hcs : Nat.toDigits 10 n.toNat with
    | nil => rfl
    | cons c cs =>
        have hc : c ≠ '-' := by
          rintro rfl
          exact hname _ _ (by decide) hcs
        simpa using hc
  have htake : (Nat.toDigits 10 n.toNat).takeWhile Char.isDigit = Nat.toDigits 10 n.toNat :=
    List.takeWhile_eq_self_iff.mpr hdigits
  have hdrop : (Nat.toDigits 10 n.toNat).dropWhile Char.isDigit = [] :=
    List.dropWhile_eq_nil_iff.mpr hdigits
  have hnumber : number (Nat.toDigits 10 n.toNat) = some (.posInt n) := by
    have hlt := n.toNat_lt
    simp [number, hneg, htake, hdrop, isInt_toDigits, isFraction, isExponent, hlt]
  rw [scalar, if_neg (hname _ _ (by decide)), if_neg (hname _ _ (by decide)),
    if_neg (hname _ _ (by decide)), hnumber]
  rfl

/-! ## Stretches that begin inside a string -/

/-- How much of a string the scanner is holding. -/
def Scan.pending : Scan → Nat
  | .between | .word _ => 0
  | .string cs | .escape cs | .unicode cs _ _ _ | .pair cs _ | .pairEscape cs _ => cs.length

theorem pending_of_codeUnit {cs : List Char} {value : Nat} {high : Option Nat} {scan : Scan}
    (h : codeUnit cs value high = some scan) : scan.pending ≤ cs.length + 1 := by
  cases high with
  | none =>
      simp only [codeUnit] at h
      split at h
      · cases h
        simp [Scan.pending]
      · split at h
        · cases h
        · cases h
          simp [Scan.pending]
  | some high =>
      simp only [codeUnit] at h
      split at h
      · cases h
        simp [Scan.pending]
      · cases h

theorem pending_of_scanBetween {c : Char} {scan : Scan} {ts : List Token}
    (h : scanBetween c = some (scan, ts)) :
    scan.pending = 0 ∧ ∀ cs, .string cs ∉ ts := by
  unfold scanBetween at h
  split at h
  · cases h
    simp [Scan.pending]
  · split at h
    · cases h
      simp [Scan.pending]
    · split at h
      · next token hp =>
          cases h
          refine ⟨rfl, fun cs hmem => ?_⟩
          obtain rfl := List.mem_singleton.mp hmem
          unfold punctuation at hp
          split at hp <;> cases hp
      · cases h
        simp [Scan.pending]

/-- One character adds one at most, and what is completed was held before. -/
theorem pending_step {scan scan' : Scan} {c : Char} {ts : List Token}
    (h : scanStep scan c = some (scan', ts)) :
    scan'.pending ≤ scan.pending + 1 ∧ ∀ cs, .string cs ∈ ts → cs.length ≤ scan.pending := by
  cases scan with
  | between =>
      obtain ⟨hp, hts⟩ := pending_of_scanBetween h
      exact ⟨by omega, fun cs hmem => absurd hmem (hts cs)⟩
  | word ds =>
      simp only [scanStep] at h
      split at h
      · cases h
        simp [Scan.pending]
      · split at h
        · next scan₁ ts₁ hb =>
            cases h
            obtain ⟨hp, hts⟩ := pending_of_scanBetween hb
            refine ⟨by omega, fun cs hmem => ?_⟩
            rcases List.mem_cons.mp hmem with heq | hmem
            · cases heq
            · exact absurd hmem (hts cs)
        · cases h
  | string ds =>
      simp only [scanStep] at h
      split at h
      · cases h
        simp [Scan.pending]
      · split at h
        · cases h
          simp [Scan.pending]
        · split at h
          · cases h
          · cases h
            simp [Scan.pending]
  | escape ds =>
      simp only [scanStep] at h
      split at h
      · cases h
        simp [Scan.pending]
      · obtain ⟨d, _, heq⟩ := Option.map_eq_some_iff.mp h
        cases heq
        simp [Scan.pending]
  | unicode ds high digits value =>
      simp only [scanStep] at h
      split at h
      · cases h
      · split at h
        · cases h
          simp [Scan.pending]
        · obtain ⟨scan₁, hunit, heq⟩ := Option.map_eq_some_iff.mp h
          cases heq
          exact ⟨pending_of_codeUnit hunit, by simp⟩
  | pair ds high =>
      simp only [scanStep] at h
      split at h
      · cases h
        simp [Scan.pending]
      · cases h
  | pairEscape ds high =>
      simp only [scanStep] at h
      split at h
      · cases h
        simp [Scan.pending]
      · cases h

/-- A stretch that begins inside a string is the content of that string, or
every string in it is shorter than the stretch. -/
theorem region_of_run {cs : List Char} {scan : Scan} {ts : List Token}
    (h : Run scanStep (fun _ _ => True) (.string []) cs scan ts) :
    (Plain cs ∧ scan = .string cs ∧ ts = []) ∨
      (¬ Plain cs ∧ scan.pending < cs.length ∧ ∀ ds, .string ds ∈ ts → ds.length < cs.length) := by
  induction h with
  | nil => exact Or.inl ⟨by simp [Plain], rfl, rfl⟩
  | @snoc cs scan scan' ts os c _ _ hs ih =>
      rw [List.length_append, List.length_singleton, plain_append, plain_singleton]
      rcases ih with ⟨hplain, rfl, rfl⟩ | ⟨hplain, hpending, hts⟩
      · -- the first character that does not stand for itself ends this case
        simp only [scanStep] at hs
        split at hs
        · next hquote =>
            cases hs
            exact Or.inr ⟨by simp [hquote], by simp [Scan.pending], by simp⟩
        · next hquote =>
            split at hs
            · next hslash =>
                cases hs
                exact Or.inr ⟨by simp [hslash], by simp [Scan.pending], by simp⟩
            · next hslash =>
                split at hs
                · cases hs
                · next hctl =>
                    cases hs
                    exact Or.inl ⟨⟨hplain, hquote, hslash, Nat.not_lt.mp hctl⟩, rfl, rfl⟩
      · obtain ⟨hnext, hos⟩ := pending_step hs
        refine Or.inr ⟨fun hp => hplain hp.1, by omega, fun ds hmem => ?_⟩
        rcases List.mem_append.mp hmem with hm | hm
        · have := hts ds hm
          omega
        · have := hos ds hm
          omega

/-! ## Member names -/

/-- The end of a string, a member name and the beginning of a string. -/
def nextMember (key : List Char) : List Char := '"' :: ',' :: '"' :: key ++ ['"', ':', '"']

theorem exec_member_of_string {key : List Char} (hkey : Plain key) (acc : List Char) :
    exec scanStep (.string acc) (nextMember key)
      = some (.string [], [.string acc, .comma, .string key, .colon]) := by
  have hopen : exec scanStep (.string acc) ['"', ',', '"']
      = some (.string [], [.string acc, .comma]) := rfl
  have hclose : exec scanStep (.string key) ['"', ':', '"']
      = some (.string [], [.string key, .colon]) := rfl
  have hrest := exec_append_of_some (exec_string hkey []) hclose
  exact exec_append_of_some hopen hrest

/-- The scanner takes such a text only at the end of a string: from anywhere
else the name would have to be a scalar. -/
theorem exec_member {key : List Char} (hne : key ≠ []) (hkey : Plain key)
    (hword : ∀ c ∈ key, isWordChar c = true) (hscalar : scalar key = none) {scan scan' : Scan}
    {ts : List Token}
    (h : exec scanStep scan (nextMember key) = some (scan', ts)) :
    ∃ acc, scan = .string acc ∧ scan' = .string [] ∧
      ts = [.string acc, .comma, .string key, .colon] := by
  -- with the comma inside of a string, the name comes between tokens
  have hfails : ∀ ds, exec scanStep (.string ds) (',' :: '"' :: key ++ ['"', ':', '"']) = none := by
    intro ds
    have hclose : exec scanStep (.string ds) [',', '"']
        = some (.between, [.string (ds ++ [','])]) := rfl
    have hname : exec scanStep (.word key) ['"', ':', '"'] = none := by
      simp [exec, scanStep, hscalar, show isWordChar '"' = false from rfl]
    have hrest : exec scanStep .between (key ++ ['"', ':', '"']) = none := by
      rw [exec_append, exec_between_word hne hword]
      simp [hname]
    rw [show ',' :: '"' :: key ++ ['"', ':', '"'] = [',', '"'] ++ (key ++ ['"', ':', '"']) from rfl,
      exec_append, hclose]
    simp [hrest]
  have hopens : ∀ ds os, scanStep scan '"' ≠ some (.string ds, os) := by
    intro ds os hs
    have hquote : exec scanStep scan ['"'] = some (.string ds, os ++ []) := by
      simp only [exec, hs]
    rw [show nextMember key = ['"'] ++ (',' :: '"' :: key ++ ['"', ':', '"']) from rfl,
      exec_append, hquote] at h
    simp only [Option.bind_some, hfails, Option.map_none, reduceCtorEq] at h
  have hsome : (scanStep scan '"').isSome = true := by
    cases hs : scanStep scan '"' with
    | none => simp [nextMember, exec, hs] at h
    | some r => rfl
  cases scan with
  | string acc =>
      rw [exec_member_of_string hkey] at h
      cases h
      exact ⟨acc, rfl, rfl, rfl⟩
  | between => exact absurd rfl (hopens [] [])
  | word ds =>
      cases hs : scalar ds with
      | none => simp [scanStep, hs, show isWordChar '"' = false from rfl] at hsome
      | some v =>
          exact absurd (by simp [scanStep, hs, scanBetween, isWordChar, isWhitespace])
            (hopens [] [.scalar v])
  | escape ds => exact absurd rfl (hopens (ds ++ ['"']) [])
  | unicode ds high digits value => cases hsome
  | pair ds high => cases hsome
  | pairEscape ds high => cases hsome

/-! ## The members of an object -/

section Members

variable {stack : List Frame} {fields : List (String × Json)} {first : Bool} {ts : List Token}

theorem read_lbrace :
    (.lbrace :: ts).foldlM readStep (.value stack)
      = ts.foldlM readStep (.members stack [] true) := rfl

theorem read_scalarMember (key : String) (v : Json) :
    (.string key.toList :: .colon :: .scalar v :: ts).foldlM readStep
        (.members stack fields first)
      = ts.foldlM readStep (.complete (.object fields key :: stack) v) := by
  simp [readStep, readValue]

theorem read_stringMember (key s : String) :
    (.string key.toList :: .colon :: .string s.toList :: ts).foldlM readStep
        (.members stack fields first)
      = ts.foldlM readStep (.complete (.object fields key :: stack) (.string s)) := by
  simp [readStep, readValue]

theorem read_objectMember (key : String) :
    (.string key.toList :: .colon :: .lbrace :: ts).foldlM readStep
        (.members stack fields first)
      = ts.foldlM readStep (.members (.object fields key :: stack) [] true) := by
  simp [readStep, readValue]

theorem read_comma (key : String) (v : Json) :
    (.comma :: ts).foldlM readStep (.complete (.object fields key :: stack) v)
      = ts.foldlM readStep (.members stack (setField key v fields) false) := rfl

theorem read_rbrace (key : String) (v : Json) :
    (.rbrace :: ts).foldlM readStep (.complete (.object fields key :: stack) v)
      = ts.foldlM readStep (.complete stack (.object (setField key v fields))) := rfl

end Members

/-! ## The strings of a value -/

/-- A string occurs in a value, not as a name. -/
inductive HasString : Json → String → Prop where
  | string (s : String) : HasString (.string s) s
  | array {xs : List Json} {x : Json} {s : String} (hx : x ∈ xs) (h : HasString x s) :
      HasString (.array xs) s
  | object {fields : List (String × Json)} {key : String} {x : Json} {s : String}
      (hx : (key, x) ∈ fields) (h : HasString x s) : HasString (.object fields) s

theorem mem_of_lookup {key : String} {fields : List (String × Json)} {v : Json}
    (h : Json.lookup key fields = some v) : (key, v) ∈ fields := by
  induction fields with
  | nil => cases h
  | cons f rest ih =>
      obtain ⟨k, w⟩ := f
      simp only [Json.lookup] at h
      split at h
      · next hk =>
          cases h
          simp [hk]
      · exact List.mem_cons_of_mem _ (ih h)

/-- The strings of a member are strings of the object. -/
theorem HasString.of_get {v w : Json} {key s : String} (h : v.get key = some w)
    (hs : HasString w s) : HasString v s := by
  cases v with
  | object fields => exact .object (mem_of_lookup h) hs
  | _ => cases h

theorem mem_setField {key : String} {v : Json} {fields : List (String × Json)}
    {f : String × Json} (h : f ∈ setField key v fields) : f.2 = v ∨ f ∈ fields := by
  induction fields with
  | nil =>
      obtain rfl := List.mem_singleton.mp h
      exact Or.inl rfl
  | cons g rest ih =>
      obtain ⟨k, w⟩ := g
      simp only [setField] at h
      split at h
      · rcases List.mem_cons.mp h with rfl | hm
        · exact Or.inl rfl
        · exact Or.inr (List.mem_cons_of_mem _ hm)
      · rcases List.mem_cons.mp h with rfl | hm
        · exact Or.inr (List.mem_cons_self ..)
        · exact (ih hm).imp_right (List.mem_cons_of_mem _)

/-- All strings of the value satisfy `P`. -/
def Spelled (P : String → Prop) (v : Json) : Prop := ∀ s, HasString v s → P s

section Spelled

variable {P : String → Prop} {v : Json}

theorem spelled_array {xs : List Json} (h : ∀ x ∈ xs, Spelled P x) :
    Spelled P (.array xs) := by
  intro s hs
  cases hs with
  | array hx hs => exact h _ hx s hs

theorem spelled_object {fields : List (String × Json)} (h : ∀ f ∈ fields, Spelled P f.2) :
    Spelled P (.object fields) := by
  intro s hs
  cases hs with
  | object hx hs => exact h _ hx s hs

theorem spelled_setField {key : String} {fields : List (String × Json)}
    (h : ∀ f ∈ fields, Spelled P f.2) (hv : Spelled P v) :
    ∀ f ∈ setField key v fields, Spelled P f.2 := by
  intro f hf
  rcases mem_setField hf with heq | hm
  · rw [heq]
    exact hv
  · exact h f hm

theorem spelled_elements {xs : List Json} (h : ∀ x ∈ xs, Spelled P x) (hv : Spelled P v) :
    ∀ x ∈ xs ++ [v], Spelled P x := by
  intro x hx
  rcases List.mem_append.mp hx with hx | hx
  · exact h x hx
  · obtain rfl := List.mem_singleton.mp hx
    exact hv

theorem scalar_spelled {cs : List Char} (h : scalar cs = some v) : Spelled P v := by
  intro s hs
  unfold scalar at h
  split at h
  · cases h
    cases hs
  · split at h
    · cases h
      cases hs
    · split at h
      · cases h
        cases hs
      · obtain ⟨n, _, rfl⟩ := Option.map_eq_some_iff.mp h
        cases hs

def Token.Spelled (P : String → Prop) : Token → Prop
  | .string cs => P (String.ofList cs)
  | .scalar v => JsonText.Spelled P v
  | _ => True

def Frame.Spelled (P : String → Prop) : Frame → Prop
  | .array xs => ∀ x ∈ xs, JsonText.Spelled P x
  | .object fields _ => ∀ f ∈ fields, JsonText.Spelled P f.2

/-- All strings the reader holds satisfy `P`. -/
def Reader.Spelled (P : String → Prop) : Reader → Prop
  | .value stack | .elements stack => ∀ f ∈ stack, f.Spelled P
  | .members stack fields _ | .colon stack fields _ =>
      (∀ f ∈ stack, f.Spelled P) ∧ ∀ f ∈ fields, JsonText.Spelled P f.2
  | .complete stack v => (∀ f ∈ stack, f.Spelled P) ∧ JsonText.Spelled P v

theorem spelled_readValue {stack : List Frame} {token : Token} {reader : Reader}
    (h : readValue stack token = some reader) (hstack : ∀ f ∈ stack, f.Spelled P)
    (ht : token.Spelled P) : reader.Spelled P := by
  cases token with
  | string cs =>
      cases h
      refine ⟨hstack, fun s hs => ?_⟩
      cases hs
      exact ht
  | scalar v =>
      cases h
      exact ⟨hstack, ht⟩
  | lbracket =>
      cases h
      exact hstack
  | lbrace =>
      cases h
      exact ⟨hstack, by simp⟩
  | _ => cases h

theorem spelled_readStep {reader reader' : Reader} {token : Token}
    (h : readStep reader token = some reader') (hr : reader.Spelled P)
    (ht : token.Spelled P) : reader'.Spelled P := by
  unfold readStep at h
  split at h
  · exact spelled_readValue h hr ht
  · cases h
    exact ⟨hr, spelled_array (by simp)⟩
  · refine spelled_readValue h ?_ ht
    intro f hf
    rcases List.mem_cons.mp hf with rfl | hf
    · simp [Frame.Spelled]
    · exact hr f hf
  · cases h
    exact hr
  · cases h
    exact ⟨hr.1, spelled_object (by simp)⟩
  · cases h
    intro f hf
    rcases List.mem_cons.mp hf with rfl | hf
    · exact hr.2
    · exact hr.1 f hf
  · cases h
    obtain ⟨hstack, hv⟩ := hr
    intro f hf
    rcases List.mem_cons.mp hf with rfl | hf
    · exact spelled_elements (hstack _ (List.mem_cons_self ..)) hv
    · exact hstack f (List.mem_cons_of_mem _ hf)
  · cases h
    obtain ⟨hstack, hv⟩ := hr
    refine ⟨fun f hf => hstack f (List.mem_cons_of_mem _ hf), ?_⟩
    exact spelled_array (spelled_elements (hstack _ (List.mem_cons_self ..)) hv)
  · cases h
    obtain ⟨hstack, hv⟩ := hr
    refine ⟨fun f hf => hstack f (List.mem_cons_of_mem _ hf), ?_⟩
    exact spelled_setField (hstack _ (List.mem_cons_self ..)) hv
  · cases h
    obtain ⟨hstack, hv⟩ := hr
    refine ⟨fun f hf => hstack f (List.mem_cons_of_mem _ hf), ?_⟩
    exact spelled_object (spelled_setField (hstack _ (List.mem_cons_self ..)) hv)
  · cases h

theorem spelled_readTokens {ts : List Token} (h : readTokens ts = some v)
    (hts : ∀ t ∈ ts, t.Spelled P) : Spelled P v := by
  have hfold : ∀ (ts : List Token) (reader reader' : Reader), reader.Spelled P →
      (∀ t ∈ ts, t.Spelled P) → ts.foldlM readStep reader = some reader' → reader'.Spelled P := by
    intro ts
    induction ts with
    | nil =>
        intro reader reader' hr _ h
        cases h
        exact hr
    | cons t ts ih =>
        intro reader reader' hr hts h
        obtain ⟨next, hs, h⟩ := Option.bind_eq_some_iff.mp h
        exact ih next reader' (spelled_readStep hs hr (hts t (by simp)))
          (fun t ht => hts t (List.mem_cons_of_mem _ ht)) h
  unfold readTokens at h
  split at h
  · next hr =>
      cases h
      exact (hfold ts _ _ (by simp [Reader.Spelled]) hts hr).2
  · cases h

end Spelled

/-! ## The strings of a text -/

theorem tokens_append_eq_some {cs ds : List Char} {ts : List Token}
    (h : tokens (cs ++ ds) = some ts) :
    ∃ scan ts₁ scan' ts₂ last, exec scanStep .between cs = some (scan, ts₁) ∧
      exec scanStep scan ds = some (scan', ts₂) ∧ scanEnd scan' = some last ∧
      ts = ts₁ ++ ts₂ ++ last := by
  unfold tokens at h
  split at h
  · cases h
  · next scan' ts' he =>
      obtain ⟨last, hlast, rfl⟩ := Option.map_eq_some_iff.mp h
      obtain ⟨scan, ts₁, ts₂, h₁, h₂, rfl⟩ := exec_append_eq_some he
      exact ⟨scan, ts₁, scan', ts₂, last, h₁, h₂, hlast, rfl⟩

/-- A scalar token is a number or a literal name. -/
def Token.Scanned : Token → Prop
  | .scalar v => ∃ cs, JsonText.scalar cs = some v
  | _ => True

theorem scanned_of_scanBetween {c : Char} {scan : Scan} {ts : List Token}
    (h : scanBetween c = some (scan, ts)) : ∀ t ∈ ts, t.Scanned := by
  unfold scanBetween at h
  split at h
  · cases h
    simp
  · split at h
    · cases h
      simp
    · split at h
      · next token hp =>
          cases h
          intro t ht
          obtain rfl := List.mem_singleton.mp ht
          unfold punctuation at hp
          split at hp <;> cases hp <;> trivial
      · cases h
        simp

theorem scanned_step {scan scan' : Scan} {c : Char} {ts : List Token}
    (h : scanStep scan c = some (scan', ts)) : ∀ t ∈ ts, t.Scanned := by
  cases scan with
  | between => exact scanned_of_scanBetween h
  | word ds =>
      simp only [scanStep] at h
      split at h
      · cases h
        simp
      · split at h
        · next v scan₁ ts₁ hscalar hb =>
            cases h
            intro t ht
            rcases List.mem_cons.mp ht with rfl | ht
            · exact ⟨ds, hscalar⟩
            · exact scanned_of_scanBetween hb t ht
        · cases h
  | string ds =>
      simp only [scanStep] at h
      split at h
      · cases h
        intro t ht
        obtain rfl := List.mem_singleton.mp ht
        trivial
      · split at h
        · cases h
          simp
        · split at h
          · cases h
          · cases h
            simp
  | escape ds =>
      simp only [scanStep] at h
      split at h
      · cases h
        simp
      · obtain ⟨d, _, heq⟩ := Option.map_eq_some_iff.mp h
        cases heq
        simp
  | unicode ds high digits value =>
      simp only [scanStep] at h
      split at h
      · cases h
      · split at h
        · cases h
          simp
        · obtain ⟨scan₁, _, heq⟩ := Option.map_eq_some_iff.mp h
          cases heq
          simp
  | pair ds high =>
      simp only [scanStep] at h
      split at h
      · cases h
        simp
      · cases h
  | pairEscape ds high =>
      simp only [scanStep] at h
      split at h
      · cases h
        simp
      · cases h

theorem scanned_tokens {cs : List Char} {ts : List Token} (h : tokens cs = some ts) :
    ∀ t ∈ ts, t.Scanned := by
  unfold tokens at h
  split at h
  · cases h
  · next scan ts₁ he =>
      obtain ⟨last, hlast, rfl⟩ := Option.map_eq_some_iff.mp h
      have hrun : Run scanStep (fun _ _ => True) .between cs scan ts₁ :=
        run_of_exec he fun _ _ _ => trivial
      have hts : ∀ t ∈ ts₁, t.Scanned := by
        refine Run.invariant (P := fun _ ts => ∀ t ∈ ts, t.Scanned) (by simp) ?_ hrun
        intro scan scan' tr os c hall _ hs t ht
        rcases List.mem_append.mp ht with ht | ht
        · exact hall t ht
        · exact scanned_step hs t ht
      intro t ht
      rcases List.mem_append.mp ht with ht | ht
      · exact hts t ht
      · unfold scanEnd at hlast
        split at hlast
        · cases hlast
          cases ht
        · obtain ⟨v, hv, rfl⟩ := Option.map_eq_some_iff.mp hlast
          obtain rfl := List.mem_singleton.mp ht
          exact ⟨_, hv⟩
        · cases hlast

/-- A string in the value of a text is one of its tokens. -/
theorem mem_tokens_of_read {cs : List Char} {ts : List Token} {v : Json} {s : String}
    (hts : tokens cs = some ts) (hread : readTokens ts = some v) (hs : HasString v s) :
    .string s.toList ∈ ts := by
  refine spelled_readTokens (P := fun s => .string s.toList ∈ ts) hread ?_ s hs
  intro t ht
  cases t with
  | string ds => simpa [Token.Spelled] using ht
  | scalar w =>
      obtain ⟨ds, hscalar⟩ := scanned_tokens hts _ ht
      exact scalar_spelled hscalar
  | _ => trivial

end LiteXmr.JsonText
