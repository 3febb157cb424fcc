/-
LiteXmr.Rust.StrTheorems — what the readers of addresses and settings need to
know about `trim`, `to_ascii_lowercase` and `starts_with`.

A trimmed text has no white space at its ends (`Trimmed`), and trimming does
nothing to such a text (`trimChars_of_trimmed`). A prefix without white space is
found in a text that begins with none exactly when it is found in the trimmed
text (`startsWith_lower_trim`), and never behind leading white space
(`startsWith_lower_of_leading`).
-/
import LiteXmr.Rust.Str
import Mathlib.Data.Bool.AllAny
import Mathlib.Data.List.DropRight
import Mathlib.Data.List.Infix

namespace LiteXmr.Str

variable {cs pat : List Char}

/-! ## Trimming -/

/-- No white space at either end. -/
def Trimmed (cs : List Char) : Prop :=
  (∀ c ∈ cs.head?, isWhitespace c = false) ∧ ∀ c ∈ cs.getLast?, isWhitespace c = false

theorem trimChars_eq (cs : List Char) :
    trimChars cs = (cs.dropWhile isWhitespace).rdropWhile isWhitespace := rfl

theorem dropWhile_of_head (h : ∀ c ∈ cs.head?, isWhitespace c = false) :
    cs.dropWhile isWhitespace = cs := by
  cases cs with
  | nil => rfl
  | cons c cs =>
      have hc := h c rfl
      exact List.dropWhile_cons_of_neg (by rw [hc]; exact Bool.false_ne_true)

theorem trimChars_of_trimmed (h : Trimmed cs) : trimChars cs = cs := by
  rw [trimChars_eq, dropWhile_of_head h.1, List.rdropWhile_eq_self_iff]
  intro hne
  rw [h.2 _ (List.getLast?_eq_some_getLast hne)]
  exact Bool.false_ne_true

theorem head_dropWhile (cs : List Char) :
    ∀ c ∈ (cs.dropWhile isWhitespace).head?, isWhitespace c = false := by
  intro c hc
  have hnot := List.head?_dropWhile_not isWhitespace cs
  rw [Option.mem_def.mp hc] at hnot
  simpa using hnot

theorem trimmed_trimChars (cs : List Char) : Trimmed (trimChars cs) := by
  refine ⟨fun c hc => ?_, fun c hc => ?_⟩
  · -- what the second pass keeps begins with what the first one found
    have hprefix := List.rdropWhile_prefix isWhitespace (cs.dropWhile isWhitespace)
    refine head_dropWhile cs c ?_
    rw [trimChars_eq] at hc
    obtain ⟨blank, happend⟩ := hprefix
    rw [← happend]
    cases hkept : (cs.dropWhile isWhitespace).rdropWhile isWhitespace with
    | nil =>
        rw [hkept] at hc
        cases hc
    | cons d ds =>
        rw [hkept] at hc
        exact hc
  · rw [trimChars_eq] at hc
    obtain ⟨hne, hlast⟩ := List.mem_getLast?_eq_getLast hc
    rw [hlast]
    exact Bool.eq_false_iff.mpr (List.rdropWhile_last_not isWhitespace _ hne)

theorem trimChars_trimChars (cs : List Char) : trimChars (trimChars cs) = trimChars cs :=
  trimChars_of_trimmed (trimmed_trimChars cs)

theorem trim_trim (s : String) : trim (trim s) = trim s := by
  rw [trim, trim, String.toList_ofList, trimChars_trimChars]

theorem trim_of_trimmed {s : String} (h : Trimmed s.toList) : trim s = s := by
  rw [trim, trimChars_of_trimmed h, String.ofList_toList]

theorem trimmed_of_forall (h : ∀ c ∈ cs, isWhitespace c = false) : Trimmed cs :=
  ⟨fun c hc => h c (List.mem_of_head? hc), fun c hc => h c (List.mem_of_getLast? hc)⟩

/-- Without leading white space, trimming cuts off the white space at the end. -/
theorem exists_trimChars_append (h : ∀ c ∈ cs.head?, isWhitespace c = false) :
    ∃ blank, cs = trimChars cs ++ blank ∧ ∀ c ∈ blank, isWhitespace c = true := by
  refine ⟨cs.rtakeWhile isWhitespace, ?_, fun c hc => List.mem_rtakeWhile_imp hc⟩
  rw [trimChars_eq, dropWhile_of_head h, List.rdropWhile_append_rtakeWhile]

/-! ## Lower case -/

theorem isUpper_iff {c : Char} : c.isUpper = true ↔ 65 ≤ c.toNat ∧ c.toNat ≤ 90 :=
  decide_eq_true_iff.trans (and_congr UInt32.le_iff_toNat_le UInt32.le_iff_toNat_le)

theorem isLower_iff {c : Char} : c.isLower = true ↔ 97 ≤ c.toNat ∧ c.toNat ≤ 122 :=
  Bool.and_eq_true_iff.trans (and_congr (decide_eq_true_iff.trans UInt32.le_iff_toNat_le)
    (decide_eq_true_iff.trans UInt32.le_iff_toNat_le))

theorem isWhitespace_of_isAlphanum {c : Char} (h : c.isAlphanum = true) :
    isWhitespace c = false := by
  have hkind : ((c.isUpper || c.isLower) || c.isDigit) = true := h
  have hzero : '0'.toNat = 48 := rfl
  have hnine : '9'.toNat = 57 := rfl
  rw [Bool.or_eq_true, Bool.or_eq_true, isUpper_iff, isLower_iff, Char.isDigit_iff_toNat,
    hzero, hnine] at hkind
  rw [Bool.eq_false_iff, Ne]
  simp only [isWhitespace, Bool.or_eq_true, Bool.and_eq_true, decide_eq_true_eq, beq_iff_eq]
  omega

theorem toLower_of_not_upper {c : Char} (h : ¬ (65 ≤ c.toNat ∧ c.toNat ≤ 90)) :
    c.toLower = c :=
  dif_neg fun hupper : c.val ≥ 'A'.val ∧ c.val ≤ 'Z'.val =>
    h ⟨UInt32.le_iff_toNat_le.mp hupper.1, UInt32.le_iff_toNat_le.mp hupper.2⟩

theorem toLower_of_isWhitespace {c : Char} (h : isWhitespace c = true) : c.toLower = c := by
  refine toLower_of_not_upper fun hupper => ?_
  simp only [isWhitespace, Bool.or_eq_true, Bool.and_eq_true, decide_eq_true_eq,
    beq_iff_eq] at h
  omega

/-- Only the letters are images of something else. -/
theorem eq_of_toLower_eq {c d : Char} (hd : d.isLower = false) (h : c.toLower = d) : c = d := by
  by_cases hupper : 65 ≤ c.toNat ∧ c.toNat ≤ 90
  · have hletters : ∀ n : Fin 26, (Char.ofNat (65 + n.val)).toLower.isLower = true := by decide
    have hback : Char.ofNat (65 + (c.toNat - 65)) = c := by
      rw [Nat.add_sub_cancel' hupper.1, Char.ofNat_toNat]
    have hlower := hletters ⟨c.toNat - 65, by omega⟩
    rw [hback, h, hd] at hlower
    cases hlower
  · rwa [toLower_of_not_upper hupper] at h

theorem toList_toAsciiLowercase (s : String) :
    (toAsciiLowercase s).toList = s.toList.map Char.toLower := by
  rw [toAsciiLowercase, String.toList_ofList]

/-- A pattern without letters is in lower case what it is anyway. -/
theorem eq_of_map_toLower {cs ds : List Char} (hds : ∀ c ∈ ds, c.isLower = false)
    (h : cs.map Char.toLower = ds) : cs = ds := by
  rw [← h]
  conv_lhs => rw [← List.map_id cs]
  refine List.map_congr_left fun c hc => ?_
  exact eq_of_toLower_eq (hds c.toLower (by rw [← h]; exact List.mem_map_of_mem hc)) rfl

/-! ## Prefixes -/

theorem startsWith_iff {s pat : String} :
    startsWith s pat = true ↔ pat.toList <+: s.toList := by
  rw [startsWith, List.isPrefixOf_iff_prefix]

theorem endsWith_iff {s pat : String} :
    endsWith s pat = true ↔ pat.toList <:+ s.toList := by
  rw [endsWith, List.isSuffixOf_iff_suffix]

/-- A prefix that cannot take the first character of what is behind does not reach there. -/
theorem isPrefix_append_iff {α : Type} {pat xs ys : List α} (h : ∀ c ∈ ys.head?, c ∉ pat) :
    pat <+: xs ++ ys ↔ pat <+: xs := by
  refine ⟨fun hpat => ?_, fun hpat => hpat.trans (List.prefix_append xs ys)⟩
  obtain hin | ⟨tail, rfl⟩ := List.prefix_or_prefix_of_prefix hpat (List.prefix_append xs ys)
  · exact hin
  · have htail : tail <+: ys := (List.prefix_append_right_inj xs).mp hpat
    cases tail with
    | nil => rw [List.append_nil]
    | cons c tail =>
        obtain ⟨rest, rfl⟩ := htail
        exact absurd (List.mem_append_right xs List.mem_cons_self) (h c rfl)

theorem contains_iff {s pat : String} : contains s pat = true ↔ pat.toList <:+: s.toList := by
  rw [contains, List.any_eq_true, List.infix_iff_prefix_suffix]
  simp only [List.mem_tails, List.isPrefixOf_iff_prefix]
  exact ⟨fun ⟨t, hsuffix, hprefix⟩ => ⟨t, hprefix, hsuffix⟩,
    fun ⟨t, hprefix, hsuffix⟩ => ⟨t, hsuffix, hprefix⟩⟩

/-- Punctuation is found in the lower-case text only where it is in the text. -/
theorem contains_of_lower {s pat : String} (hpat : ∀ c ∈ pat.toList, c.isLower = false)
    (h : contains (toAsciiLowercase s) pat = true) : contains s pat = true := by
  rw [contains_iff] at h ⊢
  rw [toList_toAsciiLowercase] at h
  obtain ⟨before, after, happend⟩ := h
  obtain ⟨front, tail, hs, hfront, -⟩ := List.map_eq_append_iff.mp happend.symm
  obtain ⟨head, middle, hfront', -, hmiddle⟩ := List.map_eq_append_iff.mp hfront
  rw [hs, hfront', eq_of_map_toLower hpat hmiddle]
  exact ⟨head, tail, rfl⟩

/-- The text begins with white space, which `trim` would take away. -/
def leadingWhitespace (s : String) : Bool := s.toList.head?.any isWhitespace

theorem head_of_not_leading {s : String} (h : leadingWhitespace s = false) :
    ∀ c ∈ s.toList.head?, isWhitespace c = false := by
  intro c hc
  rw [leadingWhitespace, Option.mem_def.mp hc] at h
  exact h

/-- A word that can stand at the head of a trimmed text. -/
def Word (pat : String) : Prop := pat ≠ "" ∧ ∀ c ∈ pat.toList, isWhitespace c = false

instance (pat : String) : Decidable (Word pat) :=
  @instDecidableAnd _ _ inferInstance (List.decidableBAll _ _)

theorem startsWith_lower_trim {s pat : String} (hpat : Word pat)
    (h : leadingWhitespace s = false) :
    startsWith (toAsciiLowercase (trim s)) pat = startsWith (toAsciiLowercase s) pat := by
  obtain ⟨blank, happend, hblank⟩ := exists_trimChars_append (head_of_not_leading h)
  have hlower : blank.map Char.toLower = blank := by
    conv_rhs => rw [← List.map_id blank]
    exact List.map_congr_left fun c hc => toLower_of_isWhitespace (hblank c hc)
  have hout : ∀ c ∈ blank.head?, c ∉ pat.toList := by
    intro c hc hmem
    have hspace := hblank c (List.mem_of_head? hc)
    rw [hpat.2 c hmem] at hspace
    cases hspace
  rw [Bool.eq_iff_iff, startsWith_iff, startsWith_iff, toList_toAsciiLowercase,
    toList_toAsciiLowercase, trim, String.toList_ofList]
  conv_rhs => rw [happend, List.map_append, hlower, isPrefix_append_iff hout]

theorem startsWith_lower_of_leading {s pat : String} (hpat : Word pat)
    (h : leadingWhitespace s = true) : startsWith (toAsciiLowercase s) pat = false := by
  rw [Bool.eq_false_iff, Ne, startsWith_iff, toList_toAsciiLowercase]
  intro hprefix
  rw [leadingWhitespace] at h
  cases hs : s.toList with
  | nil =>
      rw [hs] at h
      cases h
  | cons c cs =>
      rw [hs] at h hprefix
      rw [List.map_cons, toLower_of_isWhitespace h] at hprefix
      cases hchars : pat.toList with
      | nil => exact hpat.1 (String.toList_eq_nil_iff.mp hchars)
      | cons d ds =>
          rw [hchars] at hprefix
          obtain rfl := (List.cons_prefix_cons.mp hprefix).1
          have hd := hpat.2 d (by rw [hchars]; exact List.mem_cons_self)
          rw [List.head?_cons, Option.any_some, hd] at h
          cases h

/-! ## Splitting -/

theorem splitOnceChars_eq_none_iff (hpat : pat ≠ []) :
    splitOnceChars pat cs = none ↔ ¬ pat <:+: cs := by
  induction cs with
  | nil =>
      rw [splitOnceChars, if_neg hpat, List.infix_nil]
      exact ⟨fun _ => hpat, fun _ => rfl⟩
  | cons c cs ih =>
      rw [splitOnceChars, List.infix_cons_iff]
      by_cases hprefix : pat <+: c :: cs
      · rw [if_pos (List.isPrefixOf_iff_prefix.mpr hprefix)]
        exact ⟨nofun, fun hnot => absurd (Or.inl hprefix) hnot⟩
      · rw [if_neg (fun h => hprefix (List.isPrefixOf_iff_prefix.mp h)), Option.map_eq_none_iff, ih,
          or_iff_right hprefix]

/-- The first separator is the one before which its first character does not occur. -/
theorem splitOnceChars_append {before after : List Char} {c : Char} (h : c ∉ before) :
    splitOnceChars (c :: pat) (before ++ c :: pat ++ after) = some (before, after) := by
  induction before with
  | nil =>
      have hprefix : (c :: pat).isPrefixOf (c :: (pat ++ after)) = true :=
        List.isPrefixOf_iff_prefix.mpr (List.prefix_append (c :: pat) after)
      rw [List.nil_append, List.cons_append, splitOnceChars, if_pos hprefix]
      simp only [List.length_cons, List.drop_succ_cons, List.drop_left]
  | cons d before ih =>
      obtain ⟨hd, hbefore⟩ := not_or.mp (mt List.mem_cons.mpr h)
      have hprefix : ¬ (c :: pat).isPrefixOf (d :: (before ++ c :: pat ++ after)) = true := by
        rw [List.isPrefixOf_iff_prefix, List.cons_prefix_cons]
        exact fun hsame => hd hsame.1
      rw [List.cons_append, List.cons_append, splitOnceChars, if_neg hprefix, ih hbefore]
      rfl

theorem splitAtChars_eq_none {p : Char → Bool} (h : ∀ c ∈ cs, p c = false) :
    splitAtChars p cs = none := by
  induction cs with
  | nil => rfl
  | cons c cs ih =>
      have hc : ¬ p c = true := by
        rw [h c List.mem_cons_self]
        exact Bool.false_ne_true
      rw [splitAtChars, if_neg hc, ih fun d hd => h d (List.mem_cons_of_mem c hd)]
      rfl

theorem splitAtChars_append {p : Char → Bool} {before after : List Char} {c : Char}
    (h : ∀ d ∈ before, p d = false) (hc : p c = true) :
    splitAtChars p (before ++ c :: after) = some (before, after) := by
  induction before with
  | nil => rw [List.nil_append, splitAtChars, if_pos hc]
  | cons d before ih =>
      have hd : ¬ p d = true := by
        rw [h d List.mem_cons_self]
        exact Bool.false_ne_true
      rw [List.cons_append, splitAtChars, if_neg hd,
        ih fun e he => h e (List.mem_cons_of_mem d he)]
      rfl

/-- The last separator is the one behind which there is no other. -/
theorem rsplitOnce_append {before after : List Char} {c : Char} (h : c ∉ after) :
    rsplitOnce (String.ofList (before ++ c :: after)) c
      = some (String.ofList before, String.ofList after) := by
  have hreverse : (before ++ c :: after).reverse = after.reverse ++ c :: before.reverse := by
    simp only [List.reverse_append, List.reverse_cons, List.append_assoc, List.singleton_append]
  have hafter : ∀ d ∈ after.reverse, (d == c) = false := by
    intro d hd
    refine beq_eq_false_iff_ne.mpr fun heq => h ?_
    rw [← heq]
    exact List.mem_reverse.mp hd
  rw [rsplitOnce, String.toList_ofList, hreverse, splitAtChars_append hafter (beq_self_eq_true c)]
  simp only [Option.map_some, List.reverse_reverse]

theorem rsplitOnce_eq_none {s : String} {c : Char} (h : c ∉ s.toList) : rsplitOnce s c = none := by
  have hnone : splitAtChars (· == c) s.toList.reverse = none := by
    refine splitAtChars_eq_none fun d hd => beq_eq_false_iff_ne.mpr fun heq => h ?_
    rw [← heq]
    exact List.mem_reverse.mp hd
  rw [rsplitOnce, hnone]
  rfl

/-! ## Trimming at the end -/

theorem trimEndMatches_ofList (cs : List Char) (c : Char) :
    trimEndMatches (String.ofList cs) c = String.ofList (cs.rdropWhile (· == c)) := by
  rw [trimEndMatches, String.toList_ofList]
  rfl

theorem rdropWhile_append_of_forall {α : Type} {p : α → Bool} {xs ys : List α}
    (h : ∀ c ∈ ys, p c = true) : (xs ++ ys).rdropWhile p = xs.rdropWhile p := by
  simp only [List.rdropWhile, List.reverse_append]
  rw [List.dropWhile_append_of_pos fun c hc => h c (List.mem_reverse.mp hc)]

theorem rdropWhile_append_of_exists {α : Type} {p : α → Bool} {xs ys : List α}
    (h : ∃ c ∈ ys, p c = false) : (xs ++ ys).rdropWhile p = xs ++ ys.rdropWhile p := by
  have hne : ys.reverse.dropWhile p ≠ [] := by
    rw [Ne, List.dropWhile_eq_nil_iff]
    obtain ⟨c, hc, hp⟩ := h
    intro hall
    rw [hall c (List.mem_reverse.mpr hc)] at hp
    cases hp
  simp only [List.rdropWhile, List.reverse_append, List.dropWhile_append]
  rw [if_neg (by simpa using hne), List.reverse_append, List.reverse_reverse]

end LiteXmr.Str
