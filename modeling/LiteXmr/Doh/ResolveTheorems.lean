/-
LiteXmr.Doh.ResolveTheorems — which address a look-up comes to.

`resolve` ends without a panic whatever the servers send, and its result is
that of two choices: the servers that are asked are the fastest of those that
work (`FastestServers`), and the address is the one of theirs that is connected
to fastest (`NearestAddress`). An address that no server gave, or one with
another port than that of the pool, is never returned, and a pool that can be
reached under one of the addresses is found.

`dohResolve_lookup` says what the controller gets of it: the look-up that
`resolvePool` is given is one for an address, which it prints with the port.
-/
import LiteXmr.Config.SniTheorems
import LiteXmr.Doh.Resolve
import LiteXmr.Doh.ResponseTheorems

namespace LiteXmr.Doh

open Checked

/-! ## What the parts compute -/

/-- The addresses in the answer of a server, none when there is no answer. -/
def answers (get : String → Option Bytes) (server hostname : String) (qtype : UInt16) :
    List SocketAddr :=
  match get (dohUrl server hostname qtype) with
  | none => []
  | some body => addressesOf body

theorem dohQuery_eq (get : String → Option Bytes) (server hostname : String) (qtype : UInt16) :
    dohQuery get server hostname qtype = .returned (answers get server hostname qtype) := by
  unfold dohQuery answers
  cases get (dohUrl server hostname qtype) with
  | none => rfl
  | some body => exact parseDnsResponse_eq body (Nat.lt_succ_self _)

variable (net : DohNetwork)

/-- The time of a server that works: it has an address for `example.com`. -/
def workingTime (server : String) : Option Nat :=
  if answers (fun url => (net.bench url).1) server "example.com" typeA = [] then none
  else some (net.bench (dohUrl server "example.com" typeA)).2

theorem benchDohServer_eq (server : String) :
    benchDohServer net server = .returned (workingTime net server) := by
  unfold benchDohServer workingTime
  rw [dohQuery_eq, returned_bind, pure_eq]
  simp only [List.isEmpty_iff]

/-- The servers that work, with their times, in the order of the list. -/
def workingServers (servers : List String) : List (String × Nat) :=
  servers.flatMap fun server => ((workingTime net server).map (server, ·)).toList

theorem benchServers_eq (servers : List String) :
    benchServers net servers = .returned (workingServers net servers) := by
  induction servers with
  | nil => rfl
  | cons server rest ih =>
      rw [benchServers, benchDohServer_eq, returned_bind, ih, returned_bind, pure_eq]
      rfl

/-- The addresses to choose from. -/
def candidates (hostname : String) (port : UInt16) (asked : List String) : List SocketAddr :=
  asked.flatMap fun server =>
    (answers net.get server hostname typeA ++ answers net.get server hostname typeAaaa).map
      (⟨·.ip, port⟩)

theorem collectAddrs_eq (hostname : String) (port : UInt16) (asked : List String) :
    collectAddrs net hostname port asked = .returned (candidates net hostname port asked) := by
  induction asked with
  | nil => rfl
  | cons server rest ih =>
      rw [collectAddrs, dohQuery_eq, returned_bind, dohQuery_eq, returned_bind, ih,
        returned_bind, pure_eq]
      rfl

variable {net}

theorem mem_workingServers {servers : List String} {server : String} {time : Nat} :
    (server, time) ∈ workingServers net servers ↔
      server ∈ servers ∧ workingTime net server = some time := by
  simp [workingServers]

/-- A server is listed once, if it works. -/
theorem map_fst_workingServers (servers : List String) :
    (workingServers net servers).map Prod.fst
      = servers.filter fun server => (workingTime net server).isSome := by
  induction servers with
  | nil => rfl
  | cons server rest ih =>
      have hcons : workingServers net (server :: rest)
          = ((workingTime net server).map (server, ·)).toList ++ workingServers net rest := rfl
      rw [hcons, List.map_append, ih, List.filter_cons]
      cases workingTime net server <;> rfl

theorem mem_connectAddrs {addrs : List SocketAddr} {addr : SocketAddr} {time i : Nat} :
    (addr, time) ∈ connectAddrs net i addrs ↔
      ∃ k, addrs[k]? = some addr ∧ net.connect (i + k) addr = some time := by
  induction addrs generalizing i with
  | nil => simp [connectAddrs]
  | cons first rest ih =>
      rw [connectAddrs, List.mem_append, ih]
      constructor
      · rintro (hfirst | ⟨k, hk, htime⟩)
        · obtain ⟨_, htime, heq⟩ :
              ∃ t, net.connect i first = some t ∧ (first, t) = (addr, time) := by
            simpa using hfirst
          cases heq
          exact ⟨0, rfl, htime⟩
        · exact ⟨k + 1, hk, by rw [← htime]; congr 1; omega⟩
      · rintro ⟨k, hk, htime⟩
        cases k with
        | zero =>
            cases hk
            exact Or.inl (by simpa using htime)
        | succ k => exact Or.inr ⟨k, hk, by rw [← htime]; congr 1; omega⟩

theorem port_of_mem_candidates {hostname : String} {port : UInt16} {asked : List String}
    {addr : SocketAddr} (h : addr ∈ candidates net hostname port asked) :
    addr.port = port ∧ ∃ server ∈ asked, ∃ qtype, (qtype = typeA ∨ qtype = typeAaaa) ∧
      ∃ given ∈ answers net.get server hostname qtype, given.ip = addr.ip := by
  obtain ⟨server, hserver, hmem⟩ := List.mem_flatMap.mp h
  obtain ⟨given, hgiven, rfl⟩ := List.mem_map.mp hmem
  rcases List.mem_append.mp hgiven with ha | haaaa
  · exact ⟨rfl, server, hserver, typeA, Or.inl rfl, given, ha, rfl⟩
  · exact ⟨rfl, server, hserver, typeAaaa, Or.inr rfl, given, haaaa, rfl⟩

/-! ## The choices -/

/-- At most two servers are asked; they work, and no other one is faster. -/
structure FastestServers (net : DohNetwork) (asked : List String) : Prop where
  nodup : asked.Nodup
  count : asked.length
    = min 2 (dohServers.filter fun server => (workingTime net server).isSome).length
  working : ∀ server ∈ asked, server ∈ dohServers ∧ (workingTime net server).isSome = true
  fastest : ∀ server ∈ asked, ∀ other ∈ dohServers, other ∉ asked →
    ∀ time otherTime, workingTime net server = some time →
      workingTime net other = some otherTime → time ≤ otherTime

/-- The result is an address that a server gave, with the port of the pool; it was reached,
and none that was reached took less time. There is no result only if none was reached. -/
structure NearestAddress (net : DohNetwork) (asked : List String) (hostname : String)
    (port : UInt16) (result : Option SocketAddr) : Prop where
  given : ∀ addr, result = some addr → addr.port = port ∧
    ∃ server ∈ asked, ∃ qtype, (qtype = typeA ∨ qtype = typeAaaa) ∧
      ∃ given ∈ answers net.get server hostname qtype, given.ip = addr.ip
  nearest : ∀ addr, result = some addr →
    ∃ k time, (candidates net hostname port asked)[k]? = some addr ∧
      net.connect k addr = some time ∧
      ∀ j other otherTime, (candidates net hostname port asked)[j]? = some other →
        net.connect j other = some otherTime → time ≤ otherTime
  missed : result = none → ∀ k addr, (candidates net hostname port asked)[k]? = some addr →
    net.connect k addr = none

/-- The servers that `resolve` asks. -/
def asked (net : DohNetwork) : List String :=
  ((sortByKey Prod.snd (workingServers net dohServers)).take 2).map Prod.fst

theorem fastestServers_asked (net : DohNetwork) : FastestServers net (asked net) := by
  have hperm := perm_sortByKey Prod.snd (workingServers net dohServers)
  have hnodup : ((sortByKey Prod.snd (workingServers net dohServers)).map Prod.fst).Nodup := by
    rw [(hperm.map Prod.fst).nodup_iff, map_fst_workingServers]
    exact (List.Nodup.filter _ (by decide : dohServers.Nodup))
  have hmem : ∀ {server time}, (server, time) ∈
      (sortByKey Prod.snd (workingServers net dohServers)).take 2 →
        server ∈ dohServers ∧ workingTime net server = some time := fun h =>
    mem_workingServers.mp (mem_sortByKey.mp (List.mem_of_mem_take h))
  refine ⟨?_, ?_, ?_, ?_⟩
  · rw [asked, List.map_take]
    exact hnodup.sublist (List.take_sublist 2 _)
  · rw [asked, List.length_map, List.length_take, hperm.length_eq, ← map_fst_workingServers,
      List.length_map]
  · intro server hserver
    obtain ⟨⟨_, time⟩, htake, rfl⟩ := List.mem_map.mp hserver
    obtain ⟨hlisted, htime⟩ := hmem htake
    exact ⟨hlisted, by rw [htime]; rfl⟩
  · intro server hserver other hother hnot time otherTime htime hotherTime
    obtain ⟨⟨_, t⟩, htake, rfl⟩ := List.mem_map.mp hserver
    obtain rfl : t = time := Option.some.inj ((hmem htake).2.symm.trans htime)
    have hworks : (other, otherTime) ∈ workingServers net dohServers :=
      mem_workingServers.mpr ⟨hother, hotherTime⟩
    rcases mem_take_or_drop Prod.snd 2 hworks with hin | hout
    · exact absurd (List.mem_map.mpr ⟨_, hin, rfl⟩) hnot
    · exact le_of_mem_take_of_mem_drop htake hout

/-- The address that is chosen of the candidates. -/
def nearest (net : DohNetwork) (addrs : List SocketAddr) : Option SocketAddr :=
  (sortByKey Prod.snd (connectAddrs net 0 addrs)).head?.map Prod.fst

theorem nearestAddress_nearest (net : DohNetwork) (asked : List String) (hostname : String)
    (port : UInt16) :
    NearestAddress net asked hostname port
      (nearest net (candidates net hostname port asked)) := by
  have hfound : ∀ addr, nearest net (candidates net hostname port asked) = some addr →
      ∃ k time, (candidates net hostname port asked)[k]? = some addr ∧
        net.connect k addr = some time ∧
        ∀ j other otherTime, (candidates net hostname port asked)[j]? = some other →
          net.connect j other = some otherTime → time ≤ otherTime := by
    intro addr h
    obtain ⟨⟨_, time⟩, hhead, rfl⟩ := Option.map_eq_some_iff.mp h
    obtain ⟨hmem, hle⟩ := le_of_head? hhead
    obtain ⟨k, hk, htime⟩ := mem_connectAddrs.mp hmem
    rw [Nat.zero_add] at htime
    refine ⟨k, time, hk, htime, fun j other otherTime hj hotherTime => ?_⟩
    exact hle (other, otherTime) (mem_connectAddrs.mpr ⟨j, hj, by rwa [Nat.zero_add]⟩)
  refine ⟨fun addr h => ?_, hfound, fun h k addr hk => ?_⟩
  · obtain ⟨k, _, hk, -⟩ := hfound addr h
    exact port_of_mem_candidates (List.mem_of_getElem? hk)
  · have hnone := head?_sortByKey_eq_none.mp (Option.map_eq_none_iff.mp h)
    cases htime : net.connect k addr with
    | none => rfl
    | some time =>
        have hmem : (addr, time) ∈ connectAddrs net 0 (candidates net hostname port asked) :=
          mem_connectAddrs.mpr ⟨k, hk, by rwa [Nat.zero_add]⟩
        rw [hnone] at hmem
        cases hmem

/-! ## Look-ups -/

/-- With no server or no address there is nothing to choose from. -/
theorem resolve_eq (net : DohNetwork) (hostname : String) (port : UInt16) :
    resolve net hostname port
      = .returned (nearest net (candidates net hostname port (asked net))) := by
  unfold resolve
  rw [benchServers_eq, returned_bind]
  by_cases hservers : workingServers net dohServers = []
  · have hasked : asked net = [] := by rw [asked, hservers]; rfl
    rw [hservers, hasked]
    rfl
  · simp only [List.isEmpty_iff, if_neg hservers, collectAddrs_eq, returned_bind]
    change (if candidates net hostname port (asked net) = [] then _ else _) = _
    by_cases haddrs : candidates net hostname port (asked net) = []
    · rw [if_pos haddrs, haddrs]
      rfl
    · rw [if_neg haddrs]
      rfl

/-- The look-up that `resolve` amounts to. -/
def lookup (net : DohNetwork) (hostname : String) (port : UInt16) : Option IpAddr :=
  (nearest net (candidates net hostname port (asked net))).map SocketAddr.ip

/-- What the controller passes on of the result of `resolve`. -/
theorem dohResolve_lookup {net : DohNetwork} {hostname : String} {port : UInt16}
    {result : Option SocketAddr} (h : resolve net hostname port = .returned result) :
    dohResolve (lookup net) hostname port = result.map SocketAddr.toText := by
  have hnearest := nearestAddress_nearest net (asked net) hostname port
  rw [resolve_eq] at h
  cases h
  unfold dohResolve lookup
  cases hresult : nearest net (candidates net hostname port (asked net)) with
  | none => rfl
  | some addr =>
      have hport := (hnearest.given addr hresult).1
      rw [← hport]
      rfl

/-- For every network and whatever the servers send, `resolve` returns: two of the fastest
servers that work are asked, or all that work if there are fewer; the result is, of the
addresses they give for the host, one that is reached in the shortest time, with the port of
the pool; and there is none only when none of them can be reached. -/
theorem resolve_nearest (net : DohNetwork) (hostname : String) (port : UInt16) :
    ∃ asked result, resolve net hostname port = .returned result ∧
      FastestServers net asked ∧ NearestAddress net asked hostname port result :=
  ⟨asked net, _, resolve_eq net hostname port, fastestServers_asked net,
    nearestAddress_nearest net (asked net) hostname port⟩

end LiteXmr.Doh
