/-
LiteXmr.Daemon.RpcUrlTheorems — the spellings of one daemon address.

An address of a daemon may be written with slashes at its end, with the path of the
RPC, and with a `daemon+` before its scheme. `hasNormalForm_iff` says when all of
them are made the same: the client looks for the path before it cuts off the slashes,
so a path with a slash behind it is not seen, and stands there twice afterwards. The
path is also found in the middle of the address when the host begins with its name.
-/
import LiteXmr.Daemon.RpcClientTheorems

namespace LiteXmr

/-! ## Base addresses -/

inductive BaseScheme where
  | bare
  | http
  | https
  deriving DecidableEq

def BaseScheme.text : BaseScheme → String
  | .bare => ""
  | .http => "http://"
  | .https => "https://"

/-- `host[:port]`, or the same behind `http://` or `https://`. -/
structure RpcBase where
  scheme : BaseScheme
  authority : String
  nonempty : authority ≠ ""
  noSlash : '/' ∉ authority.toList
  trimmed : Str.Trimmed (scheme.text ++ authority).toList

def slashes (k : Nat) : String := String.ofList (List.replicate k '/')

/-- What may stand behind the base. -/
def endings (k : Nat) : List String := ["", slashes k, "/json_rpc", "/json_rpc" ++ slashes k]

namespace RpcBase

def text (base : RpcBase) : String := base.scheme.text ++ base.authority

def spellings (base : RpcBase) (k : Nat) : List String :=
  let plain := (endings k).map (base.text ++ ·)
  if base.scheme = .bare then plain else plain ++ plain.map ("daemon+" ++ ·)

end RpcBase

/-- How often the path of the RPC stands in a text. -/
def pathCount (cs : List Char) : Nat :=
  cs.tails.countP fun t => "/json_rpc".toList.isPrefixOf t

/-- All spellings are made the same address, which has the path once and is left as it is. -/
def HasNormalForm (base : RpcBase) (k : Nat) : Prop :=
  ∃ normal, (∀ s ∈ base.spellings k, normalizeRpcUrl s = normal) ∧ pathCount normal.toList = 1 ∧
    ∀ s ∈ base.spellings k, normalizeRpcUrl (normalizeRpcUrl s) = normalizeRpcUrl s

/-! ## How often the path is found -/

theorem pathCount_cons (c : Char) (cs : List Char) :
    pathCount (c :: cs) = pathCount cs + if "/json_rpc".toList <+: c :: cs then 1 else 0 := by
  simp only [pathCount, List.tails_cons, List.countP_cons, List.isPrefixOf_iff_prefix]

/-- The path begins with a slash. -/
theorem pathCount_skip {before after : List Char} (h : '/' ∉ before) :
    pathCount (before ++ after) = pathCount after := by
  induction before with
  | nil => rfl
  | cons c before ih =>
      obtain ⟨hc, hbefore⟩ := not_or.mp (mt List.mem_cons.mpr h)
      have hnot : ¬ "/json_rpc".toList <+: c :: (before ++ after) := fun hprefix =>
        hc (List.cons_prefix_cons.mp hprefix).1
      rw [List.cons_append, pathCount_cons, if_neg hnot, Nat.add_zero, ih hbefore]

/-- Besides the path at the end there is the one that a host can begin with. -/
theorem pathCount_address {name authority : List Char} (hname : '/' ∉ name)
    (h : '/' ∉ authority) :
    pathCount (name ++ "//".toList ++ authority ++ "/json_rpc".toList)
      = 1 + if "json_rpc".toList <+: authority then 1 else 0 := by
  have hfirst : ¬ "/json_rpc".toList <+: '/' :: '/' :: (authority ++ "/json_rpc".toList) :=
    fun hp => absurd (List.cons_prefix_cons.mp (List.cons_prefix_cons.mp hp).2).1 (by decide)
  have hsecond : "/json_rpc".toList <+: '/' :: (authority ++ "/json_rpc".toList) ↔
      "json_rpc".toList <+: authority := by
    have hhost : "json_rpc".toList <+: authority ++ "/json_rpc".toList ↔
        "json_rpc".toList <+: authority := Str.isPrefix_append_iff fun c hc => by
          cases hc
          decide
    rw [← hhost]
    exact ⟨fun hp => (List.cons_prefix_cons.mp hp).2, fun hp => List.cons_prefix_cons.mpr ⟨rfl, hp⟩⟩
  have hpath : pathCount "/json_rpc".toList = 1 := by decide
  rw [List.append_assoc, List.append_assoc, pathCount_skip hname]
  change pathCount ('/' :: '/' :: (authority ++ "/json_rpc".toList)) = _
  rw [pathCount_cons, if_neg hfirst, pathCount_cons, pathCount_skip h, hpath]
  simp only [hsecond, Nat.add_zero]

/-! ## What the client makes of a spelling -/

namespace RpcBase

variable (base : RpcBase)

/-- The scheme that the client posts with. -/
def fullScheme : List Char := match base.scheme with
  | .https => "https://".toList
  | _ => "http://".toList

/-- The authority that the client posts to: `daemon+` is cut off before a scheme is added. -/
def address : String := if base.scheme = .bare then dropDaemon base.authority else base.authority

def completed : List Char := base.fullScheme ++ base.address.toList

/-- What stands behind the base in a spelling: nothing, or a slash that begins the path. -/
structure Ending (ending : List Char) : Prop where
  head : ending.head? = none ∨ ending.head? = some '/'
  notSlashes : ¬ "//".toList <+: ending
  noColon : ':' ∉ ending
  last : ∀ c ∈ ending.getLast?, Str.isWhitespace c = false

theorem not_contains_of_bare {authority ending : List Char} (h : '/' ∉ authority)
    (hending : Ending ending) :
    Str.contains (String.ofList (authority ++ ending)) "://" = false := by
  rw [← Bool.not_eq_true, Str.contains_iff, String.toList_ofList (l := authority ++ ending)]
  induction authority with
  | nil => exact fun hmark => hending.noColon (hmark.subset (by decide))
  | cons c authority ih =>
      obtain ⟨-, hauthority⟩ := not_or.mp (mt List.mem_cons.mpr h)
      rw [List.cons_append, List.infix_cons_iff]
      rintro (hhere | hrest)
      · -- the two slashes would be in the authority, or at the head of the ending
        have hslashes : "//".toList <+: authority ++ ending := (List.cons_prefix_cons.mp hhere).2
        cases authority with
        | nil => exact hending.notSlashes hslashes
        | cons d authority =>
            obtain rfl := (List.cons_prefix_cons.mp hslashes).1
            exact hauthority List.mem_cons_self
      · exact ih hauthority hrest

theorem trimmed_append {cs ending : List Char} (h : Str.Trimmed cs) (hne : cs ≠ [])
    (hending : Ending ending) : Str.Trimmed (cs ++ ending) := by
  refine ⟨?_, fun c hc => ?_⟩
  · rw [List.head?_append_of_ne_nil cs hne]
    exact h.1
  · by_cases hnil : ending = []
    · rw [hnil, List.append_nil] at hc
      exact h.2 c hc
    · rw [List.getLast?_append_of_ne_nil cs hnil] at hc
      exact hending.last c hc

theorem normalizeRpcUrl_schemed {daemon name : List Char} (rest : List Char)
    (hdaemon : daemon = [] ∨ daemon = "daemon+".toList)
    (hname : name = "http".toList ∨ name = "https".toList)
    (htrim : Str.Trimmed (daemon ++ name ++ "://".toList ++ rest)) :
    normalizeRpcUrl (String.ofList (daemon ++ name ++ "://".toList ++ rest))
      = addPath (String.ofList (name ++ "://".toList ++ rest)) := by
  have hparts : SchemeParts (String.ofList (daemon ++ name ++ "://".toList ++ rest))
      daemon name rest := by
    refine ⟨?_, hdaemon.imp_right ?_, hname.imp ?_ ?_⟩
    · rw [Str.trim, String.toList_ofList, String.toList_ofList, Str.trimChars_of_trimmed htrim]
    · exact fun h => by rw [h]; decide
    · exact fun h => by rw [h]; decide
    · exact fun h => by rw [h]; decide
  rw [hparts.normalizeRpcUrl]
  obtain rfl | rfl := hdaemon
  · rw [if_neg (by decide), List.nil_append]
  · rw [if_pos rfl, List.nil_append]

theorem dropDaemon_append {authority : String} {ending : List Char} (h : Ending ending) :
    dropDaemon (String.ofList (authority.toList ++ ending))
      = String.ofList ((dropDaemon authority).toList ++ ending) := by
  have hhead : ∀ c ∈ ending.head?, c ∉ "daemon+".toList := by
    intro c hc
    obtain hnone | hslash := h.head
    · rw [hnone] at hc
      cases hc
    · rw [hslash] at hc
      cases hc
      decide
  have hsame : Str.startsWith (String.ofList (authority.toList ++ ending)) "daemon+"
      = Str.startsWith authority "daemon+" := by
    rw [Bool.eq_iff_iff, Str.startsWith_iff, Str.startsWith_iff,
      String.toList_ofList (l := authority.toList ++ ending), Str.isPrefix_append_iff hhead]
  cases hdaemon : Str.startsWith authority "daemon+" with
  | false =>
      rw [hdaemon] at hsame
      rw [dropDaemon_of_not hsame, dropDaemon_of_not hdaemon]
  | true =>
      obtain ⟨rest, happend⟩ := Str.startsWith_iff.mp hdaemon
      have hfront : (String.ofList (authority.toList ++ ending)).toList
          = "daemon+".toList ++ (rest ++ ending) := by
        rw [String.toList_ofList, ← happend, List.append_assoc]
      rw [dropDaemon_of_front hfront, dropDaemon_of_front happend.symm, String.toList_ofList]

theorem not_mem_dropDaemon {authority : String} {c : Char} (h : c ∉ authority.toList) :
    c ∉ (dropDaemon authority).toList := by
  cases hdaemon : Str.startsWith authority "daemon+" with
  | false => rwa [dropDaemon_of_not hdaemon]
  | true =>
      obtain ⟨rest, happend⟩ := Str.startsWith_iff.mp hdaemon
      rw [dropDaemon_of_front happend.symm, String.toList_ofList]
      rw [← happend] at h
      exact fun hmem => h (List.mem_append_right _ hmem)

theorem normalizeRpcUrl_bare {authority : String} {ending : List Char}
    (hslash : '/' ∉ authority.toList) (hending : Ending ending)
    (htrim : Str.Trimmed (authority.toList ++ ending)) :
    normalizeRpcUrl (String.ofList (authority.toList ++ ending))
      = addPath
          (String.ofList ("http://".toList ++ ((dropDaemon authority).toList ++ ending))) := by
  have hbare := not_contains_of_bare (not_mem_dropDaemon hslash) hending
  rw [normalizeRpcUrl_eq, Str.trim, String.toList_ofList, Str.trimChars_of_trimmed htrim,
    dropDaemon_append hending, addScheme_of_not hbare,
    @String.ofList_append "http://".toList _, String.ofList_toList]

theorem trimmed_text {ending : List Char} (h : Ending ending) :
    Str.Trimmed (base.text.toList ++ ending) := by
  refine trimmed_append base.trimmed ?_ h
  rw [text, String.toList_append]
  exact fun hnil => base.nonempty (String.toList_eq_nil_iff.mp (List.append_eq_nil_iff.mp hnil).2)

theorem exists_name : ∃ name, base.fullScheme = name ++ "://".toList ∧
    (name = "http".toList ∨ name = "https".toList) := by
  unfold fullScheme
  cases base.scheme with
  | bare => exact ⟨"http".toList, by decide, Or.inl rfl⟩
  | http => exact ⟨"http".toList, by decide, Or.inl rfl⟩
  | https => exact ⟨"https".toList, by decide, Or.inr rfl⟩

/-- An address with a scheme is complete. -/
theorem toList_text (h : base.scheme ≠ .bare) : base.text.toList = base.completed := by
  rw [text, completed, address, if_neg h, String.toList_append]
  unfold fullScheme
  cases hscheme : base.scheme with
  | bare => exact absurd hscheme h
  | http => rfl
  | https => rfl

theorem completed_bare (h : base.scheme = .bare) :
    base.completed = "http://".toList ++ (dropDaemon base.authority).toList := by
  rw [completed, address, if_pos h, fullScheme, h]

theorem text_bare (h : base.scheme = .bare) : base.text = base.authority := by
  rw [text, h]
  exact String.empty_append

/-- An address with a scheme, with a `daemon+` or without. -/
theorem normalizeRpcUrl_completed {daemon ending : List Char}
    (hdaemon : daemon = [] ∨ daemon = "daemon+".toList)
    (htrim : Str.Trimmed (daemon ++ (base.completed ++ ending))) :
    normalizeRpcUrl (String.ofList (daemon ++ (base.completed ++ ending)))
      = addPath (String.ofList (base.completed ++ ending)) := by
  obtain ⟨name, hfull, hname⟩ := base.exists_name
  have hschemed := normalizeRpcUrl_schemed (base.address.toList ++ ending) hdaemon hname
  simp only [completed, hfull, List.append_assoc] at hschemed htrim ⊢
  exact hschemed htrim

/-- The client completes the address and looks for the path behind it. -/
theorem normalizeRpcUrl_text {ending : List Char} (h : Ending ending) :
    normalizeRpcUrl (base.text ++ String.ofList ending)
      = addPath (String.ofList (base.completed ++ ending)) := by
  have htrim := base.trimmed_text h
  rw [← String.ofList_toList (s := base.text), ← String.ofList_append]
  by_cases hbare : base.scheme = .bare
  · rw [base.text_bare hbare] at htrim ⊢
    rw [normalizeRpcUrl_bare base.noSlash h htrim, base.completed_bare hbare, List.append_assoc]
  · rw [base.toList_text hbare] at htrim ⊢
    have hcompleted := base.normalizeRpcUrl_completed (Or.inl (Eq.refl [])) htrim
    rwa [List.nil_append] at hcompleted

theorem trimmed_daemon {cs : List Char} (h : Str.Trimmed cs) :
    Str.Trimmed ("daemon+".toList ++ cs) := by
  refine ⟨by rintro c ⟨⟩; decide, fun c hc => ?_⟩
  cases cs with
  | nil =>
      rw [List.append_nil] at hc
      cases hc
      decide
  | cons d cs =>
      rw [List.getLast?_append_of_ne_nil _ (List.cons_ne_nil d cs)] at hc
      exact h.2 c hc

theorem normalizeRpcUrl_daemon {ending : List Char} (h : Ending ending)
    (hbare : base.scheme ≠ .bare) :
    normalizeRpcUrl ("daemon+" ++ (base.text ++ String.ofList ending))
      = addPath (String.ofList (base.completed ++ ending)) := by
  have htrim := trimmed_daemon (base.trimmed_text h)
  have htext : "daemon+" ++ (base.text ++ String.ofList ending)
      = String.ofList ("daemon+".toList ++ (base.text.toList ++ ending)) := by
    rw [String.ofList_append, String.ofList_append, String.ofList_toList, String.ofList_toList]
  rw [htext]
  rw [base.toList_text hbare] at htrim ⊢
  exact base.normalizeRpcUrl_completed (Or.inr rfl) htrim

theorem ending_nil : Ending [] where
  head := Or.inl rfl
  notSlashes := by decide
  noColon := List.not_mem_nil
  last := nofun

theorem ending_path (k : Nat) : Ending ("/json_rpc".toList ++ List.replicate k '/') where
  head := Or.inr rfl
  notSlashes := fun h => absurd (List.cons_prefix_cons.mp (List.cons_prefix_cons.mp h).2).1
    (by decide)
  noColon := List.not_mem_append (by decide) fun h =>
    absurd (List.eq_of_mem_replicate h) (by decide)
  last := by
    intro c hc
    cases k with
    | zero =>
        cases hc
        decide
    | succ k =>
        rw [List.getLast?_append_of_ne_nil _ (by simp)] at hc
        rw [List.eq_of_mem_replicate (List.mem_of_getLast? hc)]
        decide

/-! ## Where the path is put -/

theorem slash_not_mem_address : '/' ∉ base.address.toList := by
  unfold address
  split
  · exact not_mem_dropDaemon base.noSlash
  · exact base.noSlash

/-- The path is there. -/
theorem addPath_path :
    addPath (String.ofList (base.completed ++ "/json_rpc".toList))
      = String.ofList (base.completed ++ "/json_rpc".toList) := by
  refine addPath_of_endsWith ?_
  rw [Str.endsWith_iff, String.toList_ofList (l := base.completed ++ "/json_rpc".toList)]
  exact List.suffix_append _ _

/-- The path is there, but a slash hides it. -/
theorem addPath_slash (k : Nat) :
    addPath (String.ofList (base.completed ++ ("/json_rpc".toList ++ List.replicate (k + 1) '/')))
      = String.ofList (base.completed ++ "/json_rpc".toList ++ "/json_rpc".toList) := by
  have hslashes : ∀ c ∈ List.replicate (k + 1) '/', (c == '/') = true := fun c hc =>
    beq_iff_eq.mpr (List.eq_of_mem_replicate hc)
  have hpath : "/json_rpc".toList.rdropWhile (· == '/') = "/json_rpc".toList := by decide
  rw [← List.append_assoc, addPath_ofList (not_suffix_of_slashes (by simp) hslashes),
    Str.rdropWhile_append_of_forall hslashes,
    Str.rdropWhile_append_of_exists ⟨'j', by decide, by decide⟩, hpath]

/-- Behind the scheme, an address ends with the path only where its host is the name of it. -/
theorem not_suffix_completed (hhost : Str.startsWith base.address "json_rpc" = false) :
    ¬ "/json_rpc".toList <:+ base.completed := by
  obtain ⟨name, hfull, -⟩ := base.exists_name
  have hslash := base.slash_not_mem_address
  have haddress : '/' :: base.address.toList <:+ base.completed := by
    refine ⟨name ++ ":/".toList, ?_⟩
    rw [completed, hfull, List.append_assoc, List.append_assoc]
    rfl
  intro hpath
  obtain hshort | hlong := List.suffix_or_suffix_of_suffix hpath haddress
  · obtain heq | hin := List.suffix_cons_iff.mp hshort
    · have hsame : base.address.toList = "json_rpc".toList := (List.cons.inj heq).2.symm
      rw [Str.startsWith, hsame] at hhost
      exact absurd hhost (by decide)
    · exact hslash (hin.subset (by decide))
  · obtain heq | hin := List.suffix_cons_iff.mp hlong
    · have hsame : base.address.toList = "json_rpc".toList := (List.cons.inj heq).2
      rw [Str.startsWith, hsame] at hhost
      exact absurd hhost (by decide)
    · exact absurd (hin.subset List.mem_cons_self) (by decide)

/-- The path is put behind a host, unless this begins with the name of it. -/
theorem addPath_completed (hne : base.address ≠ "")
    (hhost : Str.startsWith base.address "json_rpc" = false) :
    addPath (String.ofList base.completed)
      = String.ofList (base.completed ++ "/json_rpc".toList) := by
  have hslash := base.slash_not_mem_address
  have hkept : ∀ c ∈ base.address.toList, (c == '/') = false := fun c hc =>
    beq_eq_false_iff_ne.mpr fun heq => hslash (by rw [← heq]; exact hc)
  have hnil : base.address.toList ≠ [] := mt String.toList_eq_nil_iff.mp hne
  have hwhole : base.address.toList.rdropWhile (· == '/') = base.address.toList := by
    refine List.rdropWhile_eq_self_iff.mpr fun hne => ?_
    rw [hkept _ (List.getLast_mem hne)]
    exact Bool.false_ne_true
  obtain ⟨c, hc⟩ := List.exists_mem_of_ne_nil _ hnil
  rw [addPath_ofList (base.not_suffix_completed hhost)]
  nth_rewrite 1 [completed]
  rw [Str.rdropWhile_append_of_exists ⟨c, hc, hkept c hc⟩, hwhole]
  rfl

/-- Without a host, the slashes of the scheme are cut off. -/
theorem addPath_noHost (h : base.address = "") :
    addPath (String.ofList base.completed)
      ≠ String.ofList (base.completed ++ "/json_rpc".toList) := by
  rw [completed, h]
  unfold fullScheme
  cases base.scheme with
  | bare => decide +kernel
  | http => decide +kernel
  | https => decide +kernel

/-! ## All spellings -/

theorem normalizeRpcUrl_spelling {k : Nat} {s : String} (h : s ∈ base.spellings k) :
    ∃ ending ∈ endings k, Ending ending.toList →
      normalizeRpcUrl s = addPath (String.ofList (base.completed ++ ending.toList)) := by
  have hplain : ∀ plain ∈ (endings k).map (base.text ++ ·), ∃ ending ∈ endings k,
      plain = base.text ++ String.ofList ending.toList := by
    intro plain hmem
    obtain ⟨ending, hending, rfl⟩ := List.mem_map.mp hmem
    exact ⟨ending, hending, by rw [String.ofList_toList]⟩
  unfold spellings at h
  simp only at h
  split at h
  · obtain ⟨ending, hending, rfl⟩ := hplain s h
    exact ⟨ending, hending, base.normalizeRpcUrl_text⟩
  · next hbare =>
      obtain hmem | hmem := List.mem_append.mp h
      · obtain ⟨ending, hending, rfl⟩ := hplain s hmem
        exact ⟨ending, hending, base.normalizeRpcUrl_text⟩
      · obtain ⟨plain, hin, rfl⟩ := List.mem_map.mp hmem
        obtain ⟨ending, hending, rfl⟩ := hplain plain hin
        exact ⟨ending, hending, fun h => base.normalizeRpcUrl_daemon h hbare⟩

theorem mem_spellings {k : Nat} {ending : String} (h : ending ∈ endings k) :
    base.text ++ ending ∈ base.spellings k := by
  have hmem : base.text ++ ending ∈ (endings k).map (base.text ++ ·) := List.mem_map_of_mem h
  unfold spellings
  simp only
  split
  · exact hmem
  · exact List.mem_append_left _ hmem

theorem pathCount_completed :
    pathCount (base.completed ++ "/json_rpc".toList)
      = 1 + if "json_rpc".toList <+: base.address.toList then 1 else 0 := by
  obtain ⟨name, hfull, hname⟩ := base.exists_name
  have hslash : '/' ∉ name ++ [':'] := by
    obtain rfl | rfl := hname
    · decide
    · decide
  rw [← pathCount_address hslash base.slash_not_mem_address, completed, hfull]
  refine congrArg pathCount ?_
  simp only [List.append_assoc]
  rfl

theorem head_completed : base.completed.head? = some 'h' := by
  unfold completed fullScheme
  cases base.scheme with
  | bare => rfl
  | http => rfl
  | https => rfl

/-- The normal form is left as it is. -/
theorem normalizeRpcUrl_normal :
    normalizeRpcUrl (String.ofList (base.completed ++ "/json_rpc".toList))
      = String.ofList (base.completed ++ "/json_rpc".toList) := by
  have htrim : Str.Trimmed ([] ++ (base.completed ++ "/json_rpc".toList)) := by
    refine ⟨fun c hc => ?_, fun c hc => ?_⟩
    · rw [List.nil_append, List.head?_append, base.head_completed] at hc
      cases hc
      decide
    · rw [List.nil_append, List.getLast?_append_of_ne_nil _ (by decide)] at hc
      cases hc
      decide
  have hcompleted := base.normalizeRpcUrl_completed (Or.inl (Eq.refl [])) htrim
  rw [List.nil_append, base.addPath_path] at hcompleted
  exact hcompleted

theorem normalizeRpcUrl_path :
    normalizeRpcUrl (base.text ++ "/json_rpc")
      = String.ofList (base.completed ++ "/json_rpc".toList) := by
  have htext := base.normalizeRpcUrl_text (ending_path 0)
  rw [List.replicate_zero, List.append_nil, String.ofList_toList, base.addPath_path] at htext
  exact htext

/-- Behind a slash the path is not seen, and added once more. -/
theorem normalizeRpcUrl_pathSlashes (k : Nat) :
    normalizeRpcUrl (base.text ++ ("/json_rpc" ++ slashes (k + 1)))
      = String.ofList (base.completed ++ "/json_rpc".toList ++ "/json_rpc".toList) := by
  have htext := base.normalizeRpcUrl_text (ending_path (k + 1))
  rw [base.addPath_slash, String.ofList_append, String.ofList_toList] at htext
  exact htext

theorem normalizeRpcUrl_of_host (hne : base.address ≠ "")
    (hhost : Str.startsWith base.address "json_rpc" = false) {s : String}
    (hs : s ∈ base.spellings 0) :
    normalizeRpcUrl s = String.ofList (base.completed ++ "/json_rpc".toList) := by
  obtain ⟨ending, hending, hspelling⟩ := base.normalizeRpcUrl_spelling hs
  have hendings : ∀ e ∈ endings 0, e = "" ∨ e = "/json_rpc" :=
    List.all_iff_forall_prop.mp (by decide)
  obtain rfl | rfl := hendings ending hending
  · have htext := hspelling ending_nil
    rwa [show "".toList = [] from rfl, List.append_nil, base.addPath_completed hne hhost] at htext
  · have hending : Ending "/json_rpc".toList := by
      have hpath := ending_path 0
      rwa [List.replicate_zero, List.append_nil] at hpath
    rw [hspelling hending, base.addPath_path]

theorem pathCount_eq_one_iff :
    pathCount (base.completed ++ "/json_rpc".toList) = 1 ↔
      Str.startsWith base.address "json_rpc" = false := by
  rw [base.pathCount_completed, ← Bool.not_eq_true, Str.startsWith_iff]
  split
  · next hhost => exact iff_of_false nofun fun h => h hhost
  · next hhost => exact iff_of_true rfl hhost

end RpcBase

/-- All spellings are made the same exactly when no slash stands behind the path, and there is
a host that does not begin with the name of the path. -/
theorem hasNormalForm_iff (base : RpcBase) (k : Nat) :
    HasNormalForm base k ↔
      k = 0 ∧ base.address ≠ "" ∧ Str.startsWith base.address "json_rpc" = false := by
  constructor
  · rintro ⟨normal, hsame, hcount, -⟩
    have hpath : normal = String.ofList (base.completed ++ "/json_rpc".toList) := by
      rw [← base.normalizeRpcUrl_path]
      exact (hsame _ (base.mem_spellings (by simp [endings]))).symm
    refine ⟨?_, fun hnone => ?_, ?_⟩
    · cases k with
      | zero => rfl
      | succ k =>
          have hspelling := hsame _ (base.mem_spellings
            (show "/json_rpc" ++ slashes (k + 1) ∈ endings (k + 1) by simp [endings]))
          rw [base.normalizeRpcUrl_pathSlashes, hpath] at hspelling
          have hpath : "/json_rpc".toList = [] :=
            List.append_right_eq_self.mp (String.ofList_inj.mp hspelling)
          exact absurd hpath (by decide)
    · have hspelling := hsame _ (base.mem_spellings (show "" ∈ endings k by simp [endings]))
      have htext := base.normalizeRpcUrl_text RpcBase.ending_nil
      rw [List.append_nil] at htext
      exact base.addPath_noHost hnone ((htext.symm.trans hspelling).trans hpath)
    · rw [hpath, String.toList_ofList (l := base.completed ++ "/json_rpc".toList)] at hcount
      exact base.pathCount_eq_one_iff.mp hcount
  · rintro ⟨rfl, hne, hhost⟩
    have hnormal : ∀ s ∈ base.spellings 0, normalizeRpcUrl s
        = String.ofList (base.completed ++ "/json_rpc".toList) :=
      fun s hs => base.normalizeRpcUrl_of_host hne hhost hs
    refine ⟨_, hnormal, ?_, fun s hs => ?_⟩
    · rw [String.toList_ofList (l := base.completed ++ "/json_rpc".toList)]
      exact base.pathCount_eq_one_iff.mpr hhost
    · rw [hnormal s hs, base.normalizeRpcUrl_normal]

/-- The local daemon, with a slash behind the path. -/
def localDaemon : RpcBase where
  scheme := .http
  authority := "127.0.0.1:18081"
  nonempty := by decide
  noSlash := by decide
  trimmed := by
    refine Str.trimmed_of_forall ?_
    exact List.all_iff_forall_prop.mp (by decide +kernel)

theorem slash_behind_path :
    "http://127.0.0.1:18081/json_rpc/" ∈ localDaemon.spellings 1 ∧
      normalizeRpcUrl "http://127.0.0.1:18081/json_rpc/"
        = "http://127.0.0.1:18081/json_rpc/json_rpc" ∧
      ¬ HasNormalForm localDaemon 1 := by
  have hslash : "http://127.0.0.1:18081/json_rpc/" ∈ localDaemon.spellings 1 := by decide +kernel
  have hplain : "http://127.0.0.1:18081" ∈ localDaemon.spellings 1 := by decide +kernel
  have hdoubled : normalizeRpcUrl "http://127.0.0.1:18081/json_rpc/"
      = "http://127.0.0.1:18081/json_rpc/json_rpc" := by decide +kernel
  refine ⟨hslash, hdoubled, ?_⟩
  rintro ⟨normal, hsame, -⟩
  have hequal := (hsame _ hslash).trans (hsame _ hplain).symm
  rw [hdoubled] at hequal
  exact absurd hequal (by decide +kernel)

end LiteXmr
