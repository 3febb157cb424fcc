/-
LiteXmr.Daemon.RpcClientTheorems — the addresses that `normalize_rpc_url` makes.

The configuration decides by `url_implies_daemon_rpc` that an address is that of a
daemon, and looks at it in lower case; the client takes the address apart as it
stands. `isRpcUrl_iff` says for which addresses of a daemon the client gets one
that it can post to. It does not where `daemon+` has a capital letter, nor where
only slashes stand behind the scheme: the last step cuts them off, and two of the
scheme with them.
-/
import LiteXmr.Config.SchemeTheorems
import LiteXmr.Daemon.RpcClient

namespace LiteXmr

/-! ## The steps of `normalize_rpc_url` -/

def dropDaemon (url : String) : String := (Str.stripPrefixStr url "daemon+").getD url

def addScheme (url : String) : String :=
  if Str.contains url "://" then url else "http://" ++ url

def addPath (url : String) : String :=
  if Str.endsWith url "/json_rpc" then url else Str.trimEndMatches url '/' ++ "/json_rpc"

theorem normalizeRpcUrl_eq (raw : String) :
    normalizeRpcUrl raw = addPath (addScheme (dropDaemon (Str.trim raw))) := rfl

theorem dropDaemon_of_front {url : String} {rest : List Char}
    (h : url.toList = "daemon+".toList ++ rest) : dropDaemon url = String.ofList rest := by
  have hstarts : Str.startsWith url "daemon+" = true :=
    Str.startsWith_iff.mpr (h ▸ List.prefix_append _ rest)
  rw [dropDaemon, Str.stripPrefixStr, if_pos hstarts, h, List.drop_left]
  rfl

theorem dropDaemon_of_not {url : String} (h : Str.startsWith url "daemon+" = false) :
    dropDaemon url = url := by
  rw [dropDaemon, Str.stripPrefixStr, if_neg (by rw [h]; exact Bool.false_ne_true)]
  rfl

theorem addScheme_of_contains {url : String} (h : Str.contains url "://" = true) :
    addScheme url = url := if_pos h

theorem addScheme_of_not {url : String} (h : Str.contains url "://" = false) :
    addScheme url = "http://" ++ url := if_neg (by rw [h]; exact Bool.false_ne_true)

theorem endsWith_addPath (url : String) : Str.endsWith (addPath url) "/json_rpc" = true := by
  unfold addPath
  split
  · assumption
  · rw [Str.endsWith_iff, String.toList_append]
    exact List.suffix_append _ _

theorem addPath_of_endsWith {url : String} (h : Str.endsWith url "/json_rpc" = true) :
    addPath url = url := if_pos h

theorem addPath_ofList {cs : List Char} (h : ¬ "/json_rpc".toList <:+ cs) :
    addPath (String.ofList cs)
      = String.ofList (cs.rdropWhile (· == '/') ++ "/json_rpc".toList) := by
  have hends : ¬ Str.endsWith (String.ofList cs) "/json_rpc" = true := by
    rwa [Str.endsWith_iff, String.toList_ofList (l := cs)]
  rw [addPath, if_neg hends, Str.trimEndMatches_ofList, String.ofList_append, String.ofList_toList]

/-- A text with a slash at its end does not end with the path. -/
theorem not_suffix_of_slashes {front slashes : List Char} (hne : slashes ≠ [])
    (h : ∀ c ∈ slashes, (c == '/') = true) : ¬ "/json_rpc".toList <:+ front ++ slashes := by
  rintro ⟨before, happend⟩
  have hlast := congrArg List.getLast? happend
  rw [List.getLast?_append_of_ne_nil _ hne, List.getLast?_append_of_ne_nil _ (by decide)] at hlast
  exact absurd (h 'c' (List.mem_of_getLast? hlast.symm)) (by decide)

/-- What stands before the last character that is no slash stays. -/
theorem prefix_addPath (front : List Char) {rest : List Char} (h : ∃ c ∈ rest, c ≠ '/') :
    front <+: (addPath (String.ofList (front ++ rest))).toList := by
  have hkept : ∃ c ∈ rest, (c == '/') = false := by
    obtain ⟨c, hc, hne⟩ := h
    exact ⟨c, hc, beq_eq_false_iff_ne.mpr hne⟩
  by_cases hends : "/json_rpc".toList <:+ front ++ rest
  · rw [addPath_of_endsWith (by rwa [Str.endsWith_iff, String.toList_ofList (l := front ++ rest)]),
      String.toList_ofList]
    exact List.prefix_append front rest
  · rw [addPath_ofList hends, String.toList_ofList, Str.rdropWhile_append_of_exists hkept,
      List.append_assoc]
    exact List.prefix_append front _

/-- Slashes alone are cut off, with those of the scheme. -/
theorem addPath_slashes {front rest : List Char} (hfront : front.getLast? = some ':')
    (h : ∀ c ∈ rest, c = '/') :
    addPath (String.ofList (front ++ "//".toList ++ rest))
      = String.ofList (front ++ "/json_rpc".toList) := by
  have hslashes : ∀ c ∈ "//".toList ++ rest, (c == '/') = true := by
    rw [List.forall_mem_append]
    exact ⟨List.all_iff_forall_prop.mp rfl, fun c hc => beq_iff_eq.mpr (h c hc)⟩
  have hkeep : front.rdropWhile (· == '/') = front := by
    refine List.rdropWhile_eq_self_iff.mpr fun hne => ?_
    rw [List.getLast?_eq_some_getLast hne, Option.some.injEq] at hfront
    rw [hfront]
    decide
  have hne : "//".toList ++ rest ≠ [] := List.cons_ne_nil _ _
  rw [List.append_assoc, addPath_ofList (not_suffix_of_slashes hne hslashes),
    Str.rdropWhile_append_of_forall hslashes, hkeep]

/-! ## Addresses to post to -/

/-- An address of the client: over HTTP, and with the path of the RPC. -/
def IsRpcUrl (url : String) : Prop :=
  (Str.startsWith (Str.toAsciiLowercase url) "http://" = true ∨
    Str.startsWith (Str.toAsciiLowercase url) "https://" = true) ∧
  Str.endsWith url "/json_rpc" = true

/-- Where the address has a scheme, a `daemon+` in it is in lower case, and behind it stands
something besides slashes. -/
def Postable (url : String) : Prop :=
  ∀ scheme rest, Str.splitOnce (Str.trim url) "://" = some (scheme, rest) →
    (Str.startsWith (Str.toAsciiLowercase scheme) "daemon+" = true →
      Str.startsWith scheme "daemon+" = true) ∧ ∃ c ∈ rest.toList, c ≠ '/'

/-- The name of a scheme that is HTTP, in any case. -/
def HttpName (name : List Char) : Prop :=
  name.map Char.toLower = "http".toList ∨ name.map Char.toLower = "https".toList

theorem isRpcUrl_addPath {name rest : List Char} (hname : HttpName name) :
    IsRpcUrl (addPath (String.ofList (name ++ "://".toList ++ rest))) ↔ ∃ c ∈ rest, c ≠ '/' := by
  unfold IsRpcUrl
  simp only [Str.startsWith_iff, Str.toList_toAsciiLowercase, endsWith_addPath, and_true]
  have hscheme : (name ++ "://".toList).map Char.toLower = "http://".toList ∨
      (name ++ "://".toList).map Char.toLower = "https://".toList := by
    rw [List.map_append]
    obtain hname | hname := hname
    · exact Or.inl (by rw [hname]; rfl)
    · exact Or.inr (by rw [hname]; rfl)
  by_cases hrest : ∃ c ∈ rest, c ≠ '/'
  · simp only [hrest, iff_true]
    have hprefix := (prefix_addPath (name ++ "://".toList) hrest).map Char.toLower
    obtain hscheme | hscheme := hscheme
    · rw [hscheme] at hprefix
      exact Or.inl hprefix
    · rw [hscheme] at hprefix
      exact Or.inr hprefix
  · have hslashes : ∀ c ∈ rest, c = '/' := fun c hc =>
      not_not.mp fun hne => hrest ⟨c, hc, hne⟩
    have hcolon : (name ++ [':']).getLast? = some ':' := List.getLast?_concat
    have hcut := addPath_slashes hcolon hslashes
    rw [List.append_assoc name, show [':'] ++ "//".toList = "://".toList from rfl] at hcut
    simp only [hrest, iff_false]
    rw [hcut, String.toList_ofList (l := name ++ [':'] ++ "/json_rpc".toList), List.map_append,
      List.map_append]
    obtain hname | hname := hname
    · rw [hname]
      decide
    · rw [hname]
      decide

/-! ## The parts of an address -/

/-- An optional `daemon+`, the name of the scheme, and what stands behind it. -/
def SchemeParts (url : String) (daemon name rest : List Char) : Prop :=
  (Str.trim url).toList = daemon ++ name ++ "://".toList ++ rest ∧
    (daemon = [] ∨ daemon.map Char.toLower = "daemon+".toList) ∧ HttpName name

theorem exists_of_lower_prefix {first second cs : List Char}
    (h : first ++ second ++ "://".toList <+: cs.map Char.toLower) :
    ∃ daemon name rest, cs = daemon ++ name ++ "://".toList ++ rest ∧
      daemon.map Char.toLower = first ∧ name.map Char.toLower = second := by
  obtain ⟨after, happend⟩ := h
  obtain ⟨front, rest, rfl, hfront, -⟩ := List.map_eq_append_iff.mp happend.symm
  obtain ⟨scheme, mark, rfl, hscheme, hmark⟩ := List.map_eq_append_iff.mp hfront
  obtain ⟨daemon, name, rfl, hdaemon, hname⟩ := List.map_eq_append_iff.mp hscheme
  have hmark := Str.eq_of_map_toLower (List.all_iff_forall_prop.mp rfl) hmark
  exact ⟨daemon, name, rest, by rw [hmark], hdaemon, hname⟩

theorem exists_schemeParts {url : String} (h : startsAny daemonSchemes url = true) :
    ∃ daemon name rest, SchemeParts url daemon name rest := by
  have hlead : Str.leadingWhitespace url = false := by
    rw [← Bool.not_eq_true]
    intro hlead
    rw [startsAny_of_leading daemonSchemes_known hlead] at h
    cases h
  rw [← startsAny_lower_trim daemonSchemes_known hlead] at h
  obtain ⟨scheme, hmem, hstarts⟩ := List.any_eq_true.mp h
  rw [Str.startsWith_iff, Str.toList_toAsciiLowercase] at hstarts
  have hparts : ∃ first second, scheme.toList = first ++ second ++ "://".toList ∧
      (first = [] ∨ first = "daemon+".toList) ∧
      (second = "http".toList ∨ second = "https".toList) := by
    simp only [daemonSchemes, List.mem_cons, List.not_mem_nil, or_false] at hmem
    obtain rfl | rfl | rfl | rfl := hmem
    · exact ⟨"daemon+".toList, "http".toList, rfl, Or.inr rfl, Or.inl rfl⟩
    · exact ⟨"daemon+".toList, "https".toList, rfl, Or.inr rfl, Or.inr rfl⟩
    · exact ⟨[], "http".toList, rfl, Or.inl rfl, Or.inl rfl⟩
    · exact ⟨[], "https".toList, rfl, Or.inl rfl, Or.inr rfl⟩
  obtain ⟨first, second, hscheme, hfirst, hsecond⟩ := hparts
  rw [hscheme] at hstarts
  obtain ⟨daemon, name, rest, happend, hdaemon, hname⟩ := exists_of_lower_prefix hstarts
  refine ⟨daemon, name, rest, happend, ?_, ?_⟩
  · rw [← hdaemon] at hfirst
    exact hfirst.imp_left List.map_eq_nil_iff.mp
  · rw [← hname] at hsecond
    exact hsecond

theorem colon_not_mem {cs ds : List Char} (h : cs.map Char.toLower = ds) (hds : ':' ∉ ds) :
    ':' ∉ cs := by
  intro hmem
  have hlower : Char.toLower ':' ∈ cs.map Char.toLower := List.mem_map_of_mem hmem
  rw [h] at hlower
  exact hds hlower

theorem not_daemon_of_httpName {name : List Char} (hname : HttpName name) (after : List Char) :
    ¬ "daemon+".toList <+: name.map Char.toLower ++ after := by
  intro hprefix
  obtain hname | hname := hname
  · rw [hname] at hprefix
    exact absurd (List.cons_prefix_cons.mp hprefix).1 (by decide)
  · rw [hname] at hprefix
    exact absurd (List.cons_prefix_cons.mp hprefix).1 (by decide)

section

variable {url : String} {daemon name rest : List Char} (h : SchemeParts url daemon name rest)

include h

theorem SchemeParts.splitOnce :
    Str.splitOnce (Str.trim url) "://"
      = some (String.ofList (daemon ++ name), String.ofList rest) := by
  obtain ⟨happend, hdaemon, hname⟩ := h
  have hcolon : ':' ∉ daemon ++ name := by
    refine List.not_mem_append ?_ ?_
    · obtain rfl | hdaemon := hdaemon
      · exact List.not_mem_nil
      · exact colon_not_mem hdaemon (by decide)
    · exact hname.elim (fun hname => colon_not_mem hname (by decide))
        fun hname => colon_not_mem hname (by decide)
  have hsplit : Str.splitOnceChars (':' :: "//".toList)
      (daemon ++ name ++ ':' :: "//".toList ++ rest) = some (daemon ++ name, rest) :=
    Str.splitOnceChars_append hcolon
  rw [Str.splitOnce, happend]
  exact congrArg (Option.map _) hsplit

/-- Only a `daemon+` in lower case is one for the client. -/
theorem SchemeParts.startsWith_daemon {s : String} {after : List Char}
    (hs : s.toList = daemon ++ name ++ after) :
    Str.startsWith s "daemon+" = true ↔ daemon = "daemon+".toList := by
  obtain ⟨-, hdaemon, hname⟩ := h
  rw [Str.startsWith_iff, hs]
  constructor
  · intro hprefix
    obtain rfl | hdaemon := hdaemon
    · have hlower := hprefix.map Char.toLower
      rw [List.nil_append, List.map_append] at hlower
      exact absurd hlower (not_daemon_of_httpName hname _)
    · have hlen : "daemon+".toList.length = daemon.length := by
        rw [← hdaemon, List.length_map]
      rw [List.append_assoc] at hprefix
      exact ((List.prefix_of_prefix_length_le hprefix (List.prefix_append daemon _)
        (Nat.le_of_eq hlen)).eq_of_length hlen).symm
  · rintro rfl
    rw [List.append_assoc]
    exact List.prefix_append _ _

theorem SchemeParts.postable_iff :
    Postable url ↔ (daemon = [] ∨ daemon = "daemon+".toList) ∧ ∃ c ∈ rest, c ≠ '/' := by
  unfold Postable
  rw [h.splitOnce]
  simp only [Option.some.injEq, Prod.mk.injEq, and_imp, forall_eq', forall_apply_eq_imp_iff]
  rw [String.toList_ofList (l := rest)]
  refine and_congr_left' ?_
  have hscheme : (String.ofList (daemon ++ name)).toList = daemon ++ name ++ [] := by
    rw [String.toList_ofList, List.append_nil]
  rw [h.startsWith_daemon hscheme, Str.startsWith_iff, Str.toList_toAsciiLowercase,
    String.toList_ofList (l := daemon ++ name), List.map_append]
  obtain ⟨-, rfl | hdaemon, hname⟩ := h
  · have hnot := not_daemon_of_httpName hname []
    rw [List.append_nil] at hnot
    exact ⟨fun _ => Or.inl rfl, fun _ hlower => absurd hlower hnot⟩
  · have hne : daemon ≠ [] := by
      rintro rfl
      cases hdaemon
    rw [hdaemon]
    exact ⟨fun hsame => Or.inr (hsame (List.prefix_append _ _)), fun hor _ => hor.resolve_left hne⟩

end

/-! ## The agreement -/

/-- The step before the path, for an address with a scheme. -/
theorem SchemeParts.normalizeRpcUrl {url : String} {daemon name rest : List Char}
    (h : SchemeParts url daemon name rest) :
    LiteXmr.normalizeRpcUrl url = addPath (String.ofList
      ((if daemon = "daemon+".toList then [] else daemon) ++ name ++ "://".toList ++ rest)) := by
  have hcontains : ∀ front : List Char,
      Str.contains (String.ofList (front ++ "://".toList ++ rest)) "://" = true := by
    intro front
    rw [Str.contains_iff, String.toList_ofList (l := front ++ "://".toList ++ rest)]
    exact List.infix_append _ _ _
  have hstarts := h.startsWith_daemon (s := Str.trim url) (by rw [h.1, List.append_assoc])
  rw [normalizeRpcUrl_eq]
  split
  · next hdaemon =>
      rw [dropDaemon_of_front (by rw [h.1, hdaemon, List.append_assoc, List.append_assoc]),
        List.nil_append, ← List.append_assoc, addScheme_of_contains (hcontains name)]
  · next hdaemon =>
      rw [dropDaemon_of_not (Bool.eq_false_iff.mpr (mt hstarts.mp hdaemon)),
        ← String.ofList_toList (s := Str.trim url), h.1, addScheme_of_contains (hcontains _)]

/-- A `daemon+` that the client leaves where it is stays at the head. -/
theorem not_isRpcUrl_daemon {daemon : List Char}
    (hdaemon : daemon.map Char.toLower = "daemon+".toList) (rest : List Char) (h : ':' ∈ rest) :
    ¬ IsRpcUrl (addPath (String.ofList (daemon ++ rest))) := by
  have hprefix := (prefix_addPath daemon ⟨':', h, by decide⟩).map Char.toLower
  rw [hdaemon] at hprefix
  rintro ⟨hhttp | hhttps, -⟩
  · rw [Str.startsWith_iff, Str.toList_toAsciiLowercase] at hhttp
    exact absurd (List.prefix_of_prefix_length_le hhttp hprefix (by decide)) (by decide)
  · rw [Str.startsWith_iff, Str.toList_toAsciiLowercase] at hhttps
    exact absurd (List.prefix_of_prefix_length_le hprefix hhttps (by decide)) (by decide)

/-- An address without a scheme that has a port. -/
theorem not_contains_of_parseHostPortLike {url host : String} {port : UInt16}
    (h : parseHostPortLike url = some (host, port)) :
    Str.contains (Str.trim url) "://" = false ∧ ':' ∈ (Str.trim url).toList := by
  unfold parseHostPortLike at h
  simp only at h
  split at h
  · cases h
  · next hbare =>
      refine ⟨Bool.eq_false_iff.mpr fun hcontains => hbare (Or.inr hcontains), ?_⟩
      by_contra hcolon
      rw [Str.rsplitOnce_eq_none hcolon] at h
      cases h

theorem splitOnce_of_bare {s : String} (h : Str.contains s "://" = false) :
    Str.splitOnce s "://" = none := by
  rw [Str.splitOnce, Option.map_eq_none_iff, Str.splitOnceChars_eq_none_iff (by decide),
    ← Str.contains_iff, h]
  exact Bool.false_ne_true

theorem isRpcUrl_of_bare {url : String} (h : Str.contains (Str.trim url) "://" = false)
    (hcolon : ':' ∈ (Str.trim url).toList) : IsRpcUrl (normalizeRpcUrl url) := by
  -- what is left without a `daemon+`
  have hdrop : ∃ rest, dropDaemon (Str.trim url) = String.ofList rest ∧
      rest <:+: (Str.trim url).toList ∧ ':' ∈ rest := by
    cases hdaemon : Str.startsWith (Str.trim url) "daemon+" with
    | false =>
        refine ⟨(Str.trim url).toList, ?_, List.infix_refl _, hcolon⟩
        rw [dropDaemon_of_not hdaemon, String.ofList_toList]
    | true =>
        obtain ⟨rest, happend⟩ := Str.startsWith_iff.mp hdaemon
        refine ⟨rest, dropDaemon_of_front happend.symm, ?_, ?_⟩
        · rw [← happend]
          exact (List.suffix_append _ rest).isInfix
        · rw [← happend, List.mem_append] at hcolon
          exact hcolon.resolve_left (by decide)
  obtain ⟨rest, hdrop, hpart, hmem⟩ := hdrop
  have hbare : Str.contains (String.ofList rest) "://" = false := by
    rw [← Bool.not_eq_true, Str.contains_iff, String.toList_ofList (l := rest)]
    intro hmark
    rw [Str.contains_iff.mpr (hmark.trans hpart)] at h
    cases h
  rw [normalizeRpcUrl_eq, hdrop, addScheme_of_not hbare]
  have hurl : IsRpcUrl (addPath (String.ofList ("http".toList ++ "://".toList ++ rest))) :=
    (isRpcUrl_addPath (Or.inl (by decide))).mpr ⟨':', hmem, by decide⟩
  rw [String.ofList_append] at hurl
  exact hurl

/-- The client gets an address to post to exactly from a postable one. -/
theorem isRpcUrl_iff (url : String) (h : urlImpliesDaemonRpc url = true) :
    IsRpcUrl (normalizeRpcUrl url) ↔ Postable url := by
  rw [urlImpliesDaemonRpc_eq, Bool.or_eq_true] at h
  obtain hscheme | hport := h
  · obtain ⟨daemon, name, rest, hparts⟩ := exists_schemeParts hscheme
    rw [hparts.postable_iff, hparts.normalizeRpcUrl]
    obtain ⟨-, hdaemon, hname⟩ := hparts
    split
    · next hlower =>
        rw [List.nil_append, isRpcUrl_addPath hname]
        exact ⟨fun hrest => ⟨Or.inr hlower, hrest⟩, fun hpost => hpost.2⟩
    · next hlower =>
        obtain rfl | hdaemon := hdaemon
        · rw [List.nil_append, isRpcUrl_addPath hname]
          exact ⟨fun hrest => ⟨Or.inl rfl, hrest⟩, fun hpost => hpost.2⟩
        · have hne : daemon ≠ [] := by
            rintro rfl
            cases hdaemon
          have hnot := not_isRpcUrl_daemon hdaemon (name ++ "://".toList ++ rest)
            (List.mem_append_left _ (List.mem_append_right _ (by decide)))
          rw [← List.append_assoc, ← List.append_assoc] at hnot
          exact ⟨fun hurl => absurd hurl hnot, fun hpost => (hpost.1.elim hne hlower).elim⟩
  · obtain ⟨⟨host, port⟩, hparse⟩ : ∃ found, parseHostPortLike url = some found := by
      refine Option.ne_none_iff_exists'.mp fun hnone => ?_
      rw [hnone] at hport
      cases hport
    obtain ⟨hbare, hcolon⟩ := not_contains_of_parseHostPortLike hparse
    refine iff_of_true (isRpcUrl_of_bare hbare hcolon) fun scheme rest hsplit => ?_
    rw [splitOnce_of_bare hbare] at hsplit
    cases hsplit

/-- An address with a port of monerod. -/
theorem isRpcUrl_local : IsRpcUrl (normalizeRpcUrl " 127.0.0.1:18081 ") := by
  refine (isRpcUrl_iff " 127.0.0.1:18081 " (by decide +kernel)).mpr fun scheme rest hsplit => ?_
  rw [splitOnce_of_bare (by decide +kernel)] at hsplit
  cases hsplit

/-- An address that the configuration takes for a daemon, and the client leaves as it is. -/
theorem daemon_in_capitals :
    urlImpliesDaemonRpc "DAEMON+http://127.0.0.1:18081" = true ∧
      normalizeRpcUrl "DAEMON+http://127.0.0.1:18081" = "DAEMON+http://127.0.0.1:18081/json_rpc" ∧
      ¬ IsRpcUrl (normalizeRpcUrl "DAEMON+http://127.0.0.1:18081") :=
  ⟨by decide +kernel, by decide +kernel, fun h => absurd h.1 (by decide +kernel)⟩

end LiteXmr
