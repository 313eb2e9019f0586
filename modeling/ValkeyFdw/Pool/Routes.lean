import ValkeyFdw.Pool.Bond

/-!
# Where commands go after the definition of a server changed

Commands go to the endpoint of the server's definition, or to a node that a slot map named.
A change of the definition marks the connections of the server, and whoever takes a
connection afterwards reads the definition anew. The slot maps are another cache: they are
kept by server and user, and only a redirect drops them. A scan that finds the map of the
old cluster goes to the nodes of the old cluster.

`commands_follow_definition` says that with no slot map in the cache when a definition
changes, a caller that starts afterwards sends nothing to an endpoint of the old one.
-/

namespace ValkeyFdw.Pool

open Trace

/-! ## Bonds and endpoints -/

section Bonds

variable [SysCache] {s t : Session}

/-- The endpoint is that of the node, or, while the connection is not stale, that of the
definition. -/
structure Session.Leads (s : Session) (k : ConnKey) (b : Bond) : Prop where
  serverHashvalue : b.serverHashvalue = SysCache.hashValue .foreignServer k.serverid
  node : b.nodeHost ≠ [] → b.link.endpoint = ⟨b.nodeHost, b.nodePort, none⟩
  own : b.nodeHost = [] → b.invalidated = true ∨
    b.link.endpoint = (s.catalog.servers k.serverid).endpoint

def Session.Routed (s : Session) : Prop := ∀ k b, (s.world.pool k).bond = some b → s.Leads k b

/-- A bond that the request makes or finds leads where it was asked to. -/
theorem Bond.Taken.endpoint {server : ForeignServer} {user : UserMapping} {clusterAware : Bool}
    {node : Option Node} {k : ConnKey} {b : Bond} (hs : s.Routed)
    (hResolved : s.resolved (.acquire server user clusterAware node) = true)
    (hKey : k.serverid = server.serverid ∧ k.userid = user.userid)
    (h : Bond.Taken server user node (s.world.pool k).bond b) :
    b.link.endpoint = if b.nodeHost = [] then (s.catalog.servers k.serverid).endpoint
      else ⟨b.nodeHost, b.nodePort, none⟩ := by
  simp only [Session.resolved, Bool.and_eq_true, decide_eq_true_eq] at hResolved
  rw [← hKey.1] at hResolved
  rcases h.socket with ⟨-, hNew⟩ | ⟨b₀, hBefore, hValid, hLink, hHost, hPort⟩
  · rw [hNew, hResolved.1]
  · have hLeads := hs k b₀ hBefore
    rw [hLink, hHost, hPort]
    split
    · rename_i hOwn
      rcases hLeads.own hOwn with hStale | hEndpoint
      · exact absurd (hValid.symm.trans hStale) nofun
      · exact hEndpoint
    · rename_i hNode
      exact hLeads.node hNode

theorem Session.Leads.inval {k : ConnKey} {b : Bond} (h : s.Leads k b) (cacheid : CacheId)
    (hashvalue : Nat) : s.Leads k (b.inval cacheid hashvalue) := by
  unfold Bond.inval
  split
  · exact ⟨h.serverHashvalue, h.node, fun _ => .inl rfl⟩
  · exact h

theorem servers_of_step {event : Event} (hStep : Session.step event s = .ok t)
    (hOther : ∀ serverid options, event ≠ .alterServer serverid options) :
    t.catalog.servers = s.catalog.servers := by
  cases Session.moves_of_step hStep with
  | alterServer serverid options => exact absurd rfl (hOther serverid options)
  | _ => rfl

theorem Session.Routed.step {event : Event} (hs : s.Routed) (hStep : Session.step event s = .ok t) :
    t.Routed := by
  intro k b hb
  by_cases hOther : ∀ serverid options, event ≠ .alterServer serverid options
  · have hSame : ∀ b, s.Leads k b → t.Leads k b := fun b h =>
      ⟨h.serverHashvalue, h.node, servers_of_step hStep hOther ▸ h.own⟩
    refine hSame b ?_
    cases bonds_of_step hStep hb with
    | kept hQuiet hBefore => exact hs k b hBefore
    | marked cacheid hashvalue b₀ hInval hBefore hMarked =>
      subst hMarked
      exact (hs k b₀ hBefore).inval cacheid hashvalue
    | taken id server user aware node waits hEvent hKey hResolved hTaken =>
      have hEndpoint := hTaken.endpoint hs hResolved hKey
      refine ⟨hTaken.serverHashvalue.trans (by rw [hKey.1]), fun hNode => ?_, fun hOwn => .inr ?_⟩
      · rw [hEndpoint, if_neg hNode]
      · rw [hEndpoint, if_pos hOwn]
  · push Not at hOther
    obtain ⟨serverid, options, rfl⟩ := hOther
    cases Session.moves_of_step hStep with
    | alterServer =>
      obtain ⟨b₀, hBefore, rfl⟩ := bond_of_inval hb
      have hLeads := hs k b₀ hBefore
      by_cases hServer : k.serverid = serverid
      · -- The connections of this server are found by its hash.
        have hFound : (b₀.inval .foreignServer (SysCache.hashValue .foreignServer serverid)) =
            { b₀ with invalidated := true } :=
          if_pos (by simp [hLeads.serverHashvalue, hServer])
        rw [hFound]
        exact ⟨hLeads.serverHashvalue, hLeads.node, fun _ => .inl rfl⟩
      · refine Session.Leads.inval ⟨hLeads.serverHashvalue, hLeads.node, fun hOwn => ?_⟩ _ _
        refine (hLeads.own hOwn).imp_right fun hEndpoint => hEndpoint.trans ?_
        simp [Session.inval, Session.alterServer, Function.update_of_ne hServer]

theorem Session.routed_start (residue : ConnKey → Conn) (catalog : Catalog) :
    (Session.start residue catalog).Routed := by
  intro k b hb
  rw [bond_start] at hb
  cases hb

end Bonds

/-! ## Endpoints and where they come from -/

section Traces

variable {s t : Session}

/-- One of the definitions since this change led to the endpoint. -/
def Session.Derives (s : Session) (serverid start : Nat) (ep : Endpoint) : Prop :=
  ∃ e, start ≤ e ∧ (e, ep) ∈ s.origins serverid

variable {serverid : Nat} {server : ForeignServer} {user : UserMapping} {clusterAware : Bool}
  {node : Option Node}

theorem Session.Derives.mono {start : Nat} {ep : Endpoint} (h : s.Derives serverid start ep)
    (hOrigins : ∀ x ∈ s.origins serverid, x ∈ t.origins serverid) :
    t.Derives serverid start ep := by
  obtain ⟨e, hStart, hMem⟩ := h
  exact ⟨e, hStart, hOrigins _ hMem⟩

/-- The nodes that a caller knows and the connection it holds come from a definition since it
started. -/
structure Session.Traces (s : Session) (c : Caller) : Prop where
  start : c.start ≤ s.epoch c.serverid
  known : ∀ m ∈ c.maps, ∀ n ∈ m.nodes, s.Derives c.serverid c.start (nodeEndpoint n)
  server : ∀ h, c.hold = some h → h.key.serverid = c.serverid
  held : ∀ h b, c.hold = some h → (s.world.pool h.key).bond = some b →
    s.Derives c.serverid c.start b.link.endpoint

/-- The slot maps in the cache and the endpoint of the definition are of now. -/
structure Session.Traced (s : Session) : Prop where
  current : ∀ serverid, (s.epoch serverid, (s.catalog.servers serverid).endpoint) ∈
    s.origins serverid
  cached : ∀ key map n, s.world.maps key = some map → n ∈ map.nodes →
    (s.epoch key.1, nodeEndpoint n) ∈ s.origins key.1
  callers : ∀ id c, s.callers id = some c → s.Traces c

theorem Session.Traces.of_less {c c' : Caller} (hc : s.Traces c)
    (hEpoch : s.epoch c.serverid ≤ t.epoch c.serverid)
    (hOrigins : ∀ x ∈ s.origins c.serverid, x ∈ t.origins c.serverid)
    (hServer : c'.serverid = c.serverid) (hStart : c'.start = c.start) (hMaps : c'.maps = c.maps)
    (hHold : ∀ h, c'.hold = some h → c.hold = some h)
    (hBond : ∀ h b, c'.hold = some h → (t.world.pool h.key).bond = some b →
      ∃ b₀, (s.world.pool h.key).bond = some b₀ ∧ b.link = b₀.link) : t.Traces c' := by
  refine ⟨?_, fun m hm n hn => ?_, fun h hh => ?_, fun h b hh hb => ?_⟩
  · rw [hServer, hStart]
    exact hc.start.trans hEpoch
  · rw [hServer, hStart]
    exact (hc.known m (hMaps ▸ hm) n hn).mono hOrigins
  · rw [hServer]
    exact hc.server h (hHold h hh)
  · obtain ⟨b₀, hBefore, hLink⟩ := hBond h b hh hb
    rw [hServer, hStart, hLink]
    exact (hc.held h b₀ (hHold h hh) hBefore).mono hOrigins

theorem Session.Traced.of_less (hs : s.Traced) (hEpoch : t.epoch = s.epoch)
    (hOrigins : t.origins = s.origins) (hServers : t.catalog.servers = s.catalog.servers)
    (hMaps : ∀ key map, t.world.maps key = some map → s.world.maps key = some map)
    (hCallers : ∀ id c, t.callers id = some c → ∃ c', s.callers id = some c' ∧
      c.serverid = c'.serverid ∧ c.start = c'.start ∧ c.maps = c'.maps ∧ c.hold = c'.hold)
    (hBond : ∀ k b, (t.world.pool k).bond = some b →
      ∃ b₀, (s.world.pool k).bond = some b₀ ∧ b.link = b₀.link) : t.Traced := by
  refine ⟨fun serverid => ?_, fun key map n hMap hn => ?_, fun id c hCaller => ?_⟩
  · rw [hEpoch, hOrigins, hServers]
    exact hs.current serverid
  · rw [hEpoch, hOrigins]
    exact hs.cached key map n (hMaps key map hMap) hn
  · obtain ⟨c', hCaller', hServer, hStart, hKnown, hHold⟩ := hCallers id c hCaller
    refine (hs.callers id c' hCaller').of_less (hEpoch ▸ le_refl _) (hOrigins ▸ fun _ hx => hx)
      hServer hStart hKnown (fun h hh => hHold ▸ hh) fun h b _ hb => hBond h.key b hb

/-! ### Calls -/

variable {id : Nat} {c : Caller} {w : World} {g : Option Gain}

theorem mem_originsAfter {x : Nat × Endpoint} (h : x ∈ s.origins serverid) :
    x ∈ s.originsAfter c w serverid := List.mem_append_left _ h

theorem mem_originsAfter_of_loads {h : Hold} {map : SlotMap} {n : Node} (hHold : c.hold = some h)
    (hNone : s.world.maps h.key.identity = none) (hMap : w.maps h.key.identity = some map)
    (hn : n ∈ map.nodes) :
    (s.epoch c.serverid, nodeEndpoint n) ∈ s.originsAfter c w c.serverid := by
  refine List.mem_append_right _ ?_
  have hLoaded : s.loaded c w = map.nodes := by simp [Session.loaded, hHold, hNone, hMap]
  rw [if_pos rfl, hLoaded]
  exact List.mem_map_of_mem hn

theorem Session.Traced.settle (hs : s.Traced)
    (hMaps : ∀ key map n, w.maps key = some map → n ∈ map.nodes →
      (s.epoch key.1, nodeEndpoint n) ∈ s.originsAfter c w key.1)
    (hOthers : ∀ id' c' h b, id' ≠ id → s.callers id' = some c' → c'.hold = some h →
      (w.pool h.key).bond = some b → (s.world.pool h.key).bond = some b)
    (hGain : ∀ g', g = some g' → (s.settle id c w g).Traces (c.gain g')) :
    (s.settle id c w g).Traced := by
  refine ⟨fun serverid => mem_originsAfter (hs.current serverid), hMaps, fun id' c' hCaller => ?_⟩
  by_cases hid : id' = id
  · subst hid
    rw [s.settle_callers_self] at hCaller
    obtain ⟨g', rfl, rfl⟩ := Option.map_eq_some_iff.mp hCaller
    exact hGain g' rfl
  · rw [s.settle_callers_of_ne c w g hid] at hCaller
    refine (hs.callers id' c' hCaller).of_less (le_refl _) (fun _ => mem_originsAfter) rfl rfl rfl
      (fun _ hh => hh) fun h b hh hb => ?_
    exact ⟨b, hOthers id' c' h b hid hCaller hh hb, rfl⟩

theorem Session.Traces.gain (hc : s.Traces c) {g' : Gain}
    (hMap : ∀ m, g'.map = some m → ∀ n ∈ m.nodes,
      (s.settle id c w g).Derives c.serverid c.start (nodeEndpoint n))
    (hServer : ∀ h, g'.hold = some h → h.key.serverid = c.serverid)
    (hHeld : ∀ h b, g'.hold = some h → (w.pool h.key).bond = some b →
      (s.settle id c w g).Derives c.serverid c.start b.link.endpoint) :
    (s.settle id c w g).Traces (c.gain g') := by
  refine ⟨hc.start, fun m hm n hn => ?_, hServer, hHeld⟩
  rcases List.mem_append.mp hm with hNew | hOld
  · exact hMap m (Option.mem_toList.mp hNew) n hn
  · exact (hc.known m hOld n hn).mono fun _ => mem_originsAfter

theorem Session.Traced.call_on (hs : s.Traced) (hApart : s.Apart) {waits : List Wait} {h : Hold}
    (hCaller : s.callers id = some c) (hHold : c.hold = some h)
    (hEffect : Effect h.key { s.world with waits } w g) : (s.settle id c w g).Traced := by
  have hc := hs.callers id c hCaller
  have hServer := hc.server h hHold
  have hTouches := hApart.touches hCaller hHold hEffect
  -- The maps that were in the cache are of now.
  have hCached : ∀ map n, s.world.maps h.key.identity = some map → n ∈ map.nodes →
      (s.epoch c.serverid, nodeEndpoint n) ∈ s.origins c.serverid := by
    intro map n hMap hn
    rw [← hServer]
    exact hs.cached h.key.identity map n hMap hn
  refine hs.settle (fun key map n hMap hn => ?_) (fun id' c' h' b hid hCaller' hHold' hb => ?_) ?_
  · cases hEffect with
    | uses _ hUses _ =>
      rw [hUses.maps] at hMap
      exact mem_originsAfter (hs.cached key map n hMap hn)
    | asked _ _ _ _ hWorld =>
      rw [hWorld] at hMap
      exact mem_originsAfter (hs.cached key map n hMap hn)
    | loads w₁ loaded h' hKey hUses hNone hWorld =>
      by_cases hk : key = h.key.identity
      · subst hk
        have hServer' : h.key.identity.1 = c.serverid := hServer
        rw [hServer']
        exact mem_originsAfter_of_loads hHold hNone hMap hn
      · have hBefore : s.world.maps key = some map := by
          rw [hWorld] at hMap
          simp only [Function.update_of_ne hk, hUses.maps] at hMap
          exact hMap
        exact mem_originsAfter (hs.cached key map n hBefore hn)
    | releases hWorld =>
      rw [hWorld] at hMap
      exact mem_originsAfter (hs.cached key map n hMap hn)
  · rwa [hTouches.others _ (hTouches.alone id' c' h' hid hCaller' hHold')] at hb
  · rintro g' rfl
    refine hc.gain (fun m hm n hn => ?_) (fun h' hh => ?_) fun h' b hh hb => ?_
    · refine ⟨s.epoch c.serverid, hc.start, ?_⟩
      cases hEffect with
      | uses _ hUses hGain => cases (hGain g' rfl).1.symm.trans hm
      | asked map h' hKey hMap hWorld =>
        cases hm
        exact mem_originsAfter (hCached m n hMap hn)
      | loads w₁ map h' hKey hUses hNone hWorld =>
        cases hm
        refine mem_originsAfter_of_loads hHold hNone ?_ hn
        rw [hWorld]
        exact Function.update_self ..
      | releases hWorld => cases hm
    · rw [(hEffect.keeps hh).1]
      exact hServer
    · rw [(hEffect.keeps hh).1] at hb
      exact (hc.held h b hHold (hEffect.bond hb)).mono fun _ => mem_originsAfter

theorem Session.Traced.alterServer (hs : s.Traced) (options : ServerOptions)
    (hNone : ∀ userid, s.world.maps (serverid, userid) = none) :
    (s.alterServer serverid options).Traced := by
  have hOrigins : ∀ sid, ∀ x ∈ s.origins sid, x ∈ (s.alterServer serverid options).origins sid := by
    intro sid x hx
    by_cases hsid : sid = serverid
    · subst hsid
      simp only [Session.alterServer, Function.update_self]
      exact List.mem_append_left _ hx
    · simp only [Session.alterServer, Function.update_of_ne hsid]
      exact hx
  refine ⟨fun sid => ?_, fun key map n hMap hn => ?_, fun id c hCaller => ?_⟩
  · by_cases hsid : sid = serverid
    · subst hsid
      simp only [Session.alterServer, Function.update_self]
      exact List.mem_append_right _ (List.mem_singleton_self _)
    · simp only [Session.alterServer, Function.update_of_ne hsid]
      exact hs.current sid
  · have hOther : key.1 ≠ serverid := by
      rintro rfl
      cases (hNone key.2).symm.trans hMap
    have hBefore := hOrigins key.1 _ (hs.cached key map n hMap hn)
    simpa only [Session.alterServer, Function.update_of_ne hOther] using hBefore
  · refine (hs.callers id c hCaller).of_less ?_ (hOrigins c.serverid) rfl rfl rfl (fun _ hh => hh)
      fun h b _ hb => ⟨b, hb, rfl⟩
    by_cases hsid : c.serverid = serverid
    · simp only [Session.alterServer, hsid, Function.update_self]
      exact Nat.le_succ _
    · simp only [Session.alterServer, Function.update_of_ne hsid]
      exact le_refl _

theorem Session.Traced.inval (hs : s.Traced) (cacheid : CacheId) (hashvalue : Nat) :
    (s.inval cacheid hashvalue).Traced := by
  refine hs.of_less rfl rfl rfl (fun _ _ hMap => hMap)
    (fun id c hCaller => ⟨c, hCaller, rfl, rfl, rfl, rfl⟩) fun k b hb => ?_
  obtain ⟨b₀, hBefore, rfl⟩ := bond_of_inval hb
  refine ⟨b₀, hBefore, ?_⟩
  unfold Bond.inval
  split
  · rfl
  · rfl

theorem Session.traced_start (residue : ConnKey → Conn) (catalog : Catalog) :
    (Session.start residue catalog).Traced where
  current _ := List.mem_singleton_self _
  cached _ _ _ hMap := by cases hMap
  callers _ _ hCaller := by cases hCaller

variable [SysCache]

/-- No name of a node is too long for an entry, no slot map of a server is in the cache when
its definition changes, and no subtransaction is rolled back over a connection that a
caller around it is using. -/
def RouteSafe (s : Session) : Event → Prop
  | .call _ (.acquire _ _ _ (some n)) _ => n.host.length < maxNodeHost
  | .alterServer serverid _ => ∀ userid, s.world.maps (serverid, userid) = none
  | .abortSub => s.AbortSafe
  | _ => True

/-- A connection that is taken leads where the caller may send. -/
theorem Bond.Taken.derives {k : ConnKey} {b : Bond} (hs : s.Traced) (hRouted : s.Routed)
    (hc : s.Traces c) (hResolved : s.resolved (.acquire server user clusterAware node) = true)
    (hServer : server.serverid = c.serverid)
    (hNodes : ∀ n, node = some n → ∃ m ∈ c.maps, n ∈ m.nodes)
    (hFits : ∀ n, node = some n → n.host.length < maxNodeHost)
    (hKey : k.serverid = server.serverid ∧ k.userid = user.userid)
    (h : Bond.Taken server user node (s.world.pool k).bond b) :
    s.Derives c.serverid c.start b.link.endpoint := by
  rw [h.endpoint hRouted hResolved hKey]
  split
  · rw [hKey.1, hServer]
    exact ⟨s.epoch c.serverid, hc.start, hs.current c.serverid⟩
  · rename_i hNode
    cases node with
    | none => exact absurd (h.own rfl) hNode
    | some n =>
      obtain ⟨m, hm, hn⟩ := hNodes n rfl
      obtain ⟨hHost, hPort⟩ := h.named n rfl (hFits n rfl)
      rw [hHost, hPort]
      exact hc.known m hm n hn

theorem Taking.maps {w w' : World} (h : Taking server user clusterAware node w w' g) :
    w'.maps = w.maps := by
  cases h with
  | noSlots hPicks hWorld => rw [hWorld]
  | refused k e hPicks hRefuses hWorld => exact hWorld ▸ rfl
  | unreached k e rest hPicks hNone hFails hWorld => exact hWorld ▸ rfl
  | opened k e _ hPicks hNone hUses hGain => exact hUses.maps
  | reused k e hPicks hOpen hWorld => exact hWorld ▸ rfl

theorem Session.Traced.call (hs : s.Traced) (hRouted : s.Routed) (hApart : s.Apart) {call : Call}
    {waits : List Wait} (hSafe : RouteSafe s (.call id call waits))
    (hCalled : Session.Called s id call waits c w g) : (s.settle id c w g).Traced := by
  rcases hCalled.cases with ⟨h, hHold, hEffect⟩ |
    ⟨server, user, aware, node, rfl, hHold, hServer, hNodes, hTaking⟩
  · exact hs.call_on hApart hCalled.caller hHold hEffect
  · have hc := hs.callers id c hCalled.caller
    refine hs.settle (fun key map n hMap hn => ?_) (fun id' c' h' b hid hCaller' hHold' hb => ?_) ?_
    · rw [hTaking.maps] at hMap
      exact mem_originsAfter (hs.cached key map n hMap hn)
    · rcases hTaking.picked with ⟨rfl, -⟩ | ⟨k, e, hPicks, -, hOthers, hLeased, -, hGain⟩
      · exact hb
      · have hTouches := hApart.touches_picked id hPicks hOthers hLeased hGain
        rwa [hOthers _ (hTouches.alone id' c' h' hid hCaller' hHold')] at hb
    · rintro g' rfl
      obtain ⟨k, b, rfl, hKey, hb, hTaken⟩ := hTaking.hands
      refine hc.gain (fun m hm => by cases hm) (fun h hh => ?_) fun h b' hh hb' => ?_
      · cases hh
        exact hKey.1.trans hServer
      · cases hh
        cases hb.symm.trans hb'
        refine (hTaken.derives hs hRouted hc hCalled.resolved hServer hNodes ?_ hKey).mono
          fun _ => mem_originsAfter
        rintro n rfl
        exact hSafe

theorem Session.Traced.step {event : Event} (hs : s.Traced) (hRouted : s.Routed) (hApart : s.Apart)
    (hSafe : RouteSafe s event) (hStep : Session.step event s = .ok t) : t.Traced := by
  cases Session.moves_of_step hStep with
  | enter id serverid soft hNew =>
    refine ⟨hs.current, hs.cached, fun id' c' hCaller => ?_⟩
    rcases Session.enter_callers hCaller with rfl | hCaller
    · exact ⟨le_refl _, nofun, nofun, nofun⟩
    · exact (hs.callers id' c' hCaller).of_less (le_refl _) (fun _ hx => hx) rfl rfl rfl
        (fun _ hh => hh) fun h b _ hb => ⟨b, hb, rfl⟩
  | call id call waits c w g hCalled => exact hs.call hRouted hApart hSafe hCalled
  | moved serverid userid =>
    refine hs.of_less rfl rfl rfl (fun key map hMap => ?_)
      (fun id c hCaller => ⟨c, hCaller, rfl, rfl, rfl, rfl⟩) fun k b hb => ⟨b, hb, rfl⟩
    by_cases hk : key = (serverid, userid)
    · subst hk
      simp [clusterInvalidate] at hMap
    · simpa [clusterInvalidate, Function.update_of_ne hk] using hMap
  | startSub hRunning =>
    exact hs.of_less rfl rfl rfl (fun _ _ hMap => hMap)
      (fun id c hCaller => ⟨c, hCaller, rfl, rfl, rfl, rfl⟩) fun k b hb => ⟨b, hb, rfl⟩
  | commitSub parent subs hRunning hSubs =>
    refine hs.of_less rfl rfl rfl (fun _ _ hMap => hMap) (fun id c hCaller => ?_)
      fun k b hb => ⟨b, hb, rfl⟩
    obtain ⟨c', hCaller', rfl⟩ := Option.map_eq_some_iff.mp hCaller
    refine ⟨c', hCaller', ?_⟩
    split
    · exact ⟨rfl, rfl, rfl, rfl⟩
    · exact ⟨rfl, rfl, rfl, rfl⟩
  | abortSub parent subs hSubs =>
    refine hs.of_less rfl rfl rfl (fun _ _ hMap => hMap) (fun id c hCaller => ?_)
      fun k b hb => ⟨b, bond_of_connSubxact hb, rfl⟩
    exact ⟨c, (Session.abortSub_callers hCaller).1, rfl, rfl, rfl, rfl⟩
  | endTop event hSubs => exact ⟨hs.current, hs.cached, fun _ _ hCaller => by cases hCaller⟩
  | inval cacheid hashvalue => exact hs.inval cacheid hashvalue
  | alterServer serverid options => exact (hs.alterServer options hSafe).inval _ _
  | changeMapping serverid who row umid hRow =>
    have hChanged : (s.changeMapping serverid who row).Traced :=
      hs.of_less rfl rfl rfl (fun _ _ hMap => hMap)
        (fun id c hCaller => ⟨c, hCaller, rfl, rfl, rfl, rfl⟩) fun k b hb => ⟨b, hb, rfl⟩
    exact hChanged.inval _ _

/-! ### What is sent -/

omit [SysCache] in
theorem Conn.leadsTo_iff_bond {e : Conn} {ep : Endpoint} :
    e.leadsTo ep ↔ ∃ b, e.bond = some b ∧ b.link.endpoint = ep := by
  unfold Conn.leadsTo Conn.bond
  cases e.conn with
  | none => simp
  | some sock => simp

omit [SysCache] in
theorem Effect.sent {k : ConnKey} {w w' : World} (h : Effect k w w' g) :
    ∃ eps, w'.sent = w.sent ++ eps ∧ ∀ ep ∈ eps, (w.pool k).leadsTo ep := by
  cases h with
  | uses _ hUses _ => exact hUses.sent
  | asked map h hKey hMap hWorld => exact ⟨[], by simp [hWorld]⟩
  | loads w₁ map h hKey hUses hNone hWorld => exact hWorld ▸ hUses.sent
  | releases hWorld => exact ⟨[], by simp [hWorld, World.setConn]⟩

/-- Commands go out only when a connection is opened, and to where it leads. -/
theorem Taking.sent {w w' : World} (h : Taking server user clusterAware node w w' g) :
    ∃ eps, w'.sent = w.sent ++ eps ∧ ∀ ep ∈ eps, ∃ k b,
      (k.serverid = server.serverid ∧ k.userid = user.userid) ∧
      Bond.Taken server user node (w.pool k).bond b ∧ b.link.endpoint = ep := by
  cases h with
  | noSlots hPicks hWorld => exact ⟨[], by simp [hWorld]⟩
  | refused k e hPicks hRefuses hWorld => exact ⟨[], by simp [hWorld, World.setConn]⟩
  | unreached k e rest hPicks hNone hFails hWorld => exact ⟨[], by simp [hWorld, World.setConn]⟩
  | opened k e _ hPicks hNone hUses hGain =>
    have hPicked := picked_of_picks hPicks
    obtain ⟨eps, hSent, hTo⟩ := hUses.sent
    refine ⟨eps, hSent, fun ep hep => ?_⟩
    obtain ⟨b, hb, hEndpoint⟩ := Conn.leadsTo_iff_bond.mp (hTo ep hep)
    refine ⟨k, b, ⟨hPicked.serverid, hPicked.userid⟩, ?_, hEndpoint⟩
    refine hPicked.opened (w.setConn k e).opens ?_
    simpa [World.open] using hb
  | reused k e hPicks hOpen hWorld => exact ⟨[], by simp [hWorld, World.setConn]⟩

/-- In every run whose steps are safe, a call sends its commands to endpoints that the
definition of its server led to at the time its caller started, or since: the host and port
of the definition, or a node that a slot map named that was loaded since. -/
theorem commands_follow_definition (residue : ConnKey → Conn) (catalog : Catalog)
    (events : List Event) (hSafe : Along Session.step RouteSafe events (.start residue catalog))
    {s : Session} (hRun : run Session.step events (.start residue catalog) = .ok s)
    {id : Nat} {call : Call} {waits : List Wait} (hLast : RouteSafe s (.call id call waits))
    {t : Session} (hStep : Session.step (.call id call waits) s = .ok t)
    {c : Caller} (hCaller : s.callers id = some c) :
    ∃ eps, t.world.sent = s.world.sent ++ eps ∧
      ∀ ep ∈ eps, ∃ e, c.start ≤ e ∧ (e, ep) ∈ t.origins c.serverid := by
  obtain ⟨hApart, hRouted, hTraced⟩ : s.Apart ∧ s.Routed ∧ s.Traced := by
    refine hSafe.run_invariant (I := fun s => s.Apart ∧ s.Routed ∧ s.Traced) ?_
      ⟨Session.apart_start residue catalog, Session.routed_start residue catalog,
        Session.traced_start residue catalog⟩ hRun
    rintro event - s t ⟨hApart, hRouted, hTraced⟩ hSafe hStep
    refine ⟨hApart.step ?_ hStep, hRouted.step hStep, hTraced.step hRouted hApart hSafe hStep⟩
    rintro rfl
    exact hSafe
  obtain ⟨c', w, g, rfl, hCalled⟩ := Session.step_call hStep
  cases hCalled.caller.symm.trans hCaller
  have hc := hTraced.callers id c hCaller
  rcases hCalled.cases with ⟨h, hHold, hEffect⟩ |
    ⟨server, user, aware, node, rfl, hHold, hServer, hNodes, hTaking⟩
  · obtain ⟨eps, hSent, hTo⟩ := hEffect.sent
    refine ⟨eps, hSent, fun ep hep => ?_⟩
    obtain ⟨b, hb, rfl⟩ := Conn.leadsTo_iff_bond.mp (hTo ep hep)
    exact (hc.held h b hHold hb).mono (t := s.settle id c w g) fun _ => mem_originsAfter
  · obtain ⟨eps, hSent, hTo⟩ := hTaking.sent
    refine ⟨eps, hSent, fun ep hep => ?_⟩
    obtain ⟨k, b, hKey, hTaken, rfl⟩ := hTo ep hep
    refine (hTaken.derives hTraced hRouted hc hCalled.resolved hServer hNodes ?_ hKey).mono
      (t := s.settle id c w g) fun _ => mem_originsAfter
    rintro n rfl
    exact hLast

end Traces

/-! ## A cluster that moved -/

def clusterOptions : ServerOptions := { plainOptions with cluster := true }

def movedOptions : ServerOptions := { clusterOptions with host := ascii "elsewhere" }

def clusterCatalog : Catalog := ⟨fun _ => clusterOptions, plainCatalog.mappings⟩

def oldNode : Node := ⟨ascii "node", 7000⟩

def oldMap : SlotMap where
  nodes := [oldNode]
  owner _ := some 0
  nodup := by simp
  nonempty := by simp

/-- One scan loads the slot map, then the server is altered, and another scan begins. -/
def scanAfterMove (calls : List Event) : List Event :=
  [.enter 0 1 false, .call 0 (.acquire ⟨1, clusterOptions⟩ plainUser true none) (answered 7)] ++
    calls ++ [.call 0 .release [], .alterServer 1 movedOptions, .enter 1 1 false]

/-- The slot map is loaded on the way. -/
def mapLoaded : List Event :=
  scanAfterMove [.call 0 .askMap [.answers .other, .answers .other, .answers (.shards oldMap)]] ++
    [.call 1 (.acquire ⟨1, movedOptions⟩ plainUser true none) (answered 7), .call 1 .askMap [],
      .call 1 .release []]

/-- The scan then takes a connection to the first node of the map it was given. -/
def nodeTaken : Event :=
  .call 1 (.acquire ⟨1, movedOptions⟩ plainUser true (some oldNode)) (answered 7)

/-- When a caller started, what was sent, and what the definitions of its server led to. -/
def Session.observe (s : Session) (id serverid : Nat) :
    Option Nat × List Endpoint × List (Nat × Endpoint) :=
  ((s.callers id).map Caller.start, s.world.sent, s.origins serverid)

/-- The scan that began after the change talks to a node of the old cluster, which nothing
since the change has named. -/
theorem old_map_outlives_alter :
    letI := plainCache
    ∃ s t c eps, run Session.step mapLoaded (.start plainResidue clusterCatalog) = .ok s ∧
      Session.step nodeTaken s = .ok t ∧ s.callers 1 = some c ∧ c.start = 1 ∧
      t.world.sent = s.world.sent ++ eps ∧ nodeEndpoint oldNode ∈ eps ∧
      ∀ e, (e, nodeEndpoint oldNode) ∈ t.origins 1 → e < c.start := by
  let _ := plainCache
  have hBefore : ((run Session.step mapLoaded (.start plainResidue clusterCatalog)).toOption.map
      fun s => s.observe 1 1) =
      some (some 1, [clusterOptions.endpoint, clusterOptions.endpoint, clusterOptions.endpoint,
        movedOptions.endpoint, movedOptions.endpoint],
        [(0, clusterOptions.endpoint), (0, nodeEndpoint oldNode), (1, movedOptions.endpoint)]) := by
    decide +kernel
  have hAfter : ((run Session.step (mapLoaded ++ [nodeTaken])
      (.start plainResidue clusterCatalog)).toOption.map fun s => s.observe 1 1) =
      some (some 1, [clusterOptions.endpoint, clusterOptions.endpoint, clusterOptions.endpoint,
        movedOptions.endpoint, movedOptions.endpoint, nodeEndpoint oldNode, nodeEndpoint oldNode],
        [(0, clusterOptions.endpoint), (0, nodeEndpoint oldNode), (1, movedOptions.endpoint)]) := by
    decide +kernel
  obtain ⟨t, hAll, ht⟩ := ok_of_toOption_map hAfter
  obtain ⟨s, hRun, hStep⟩ := run_append_ok.mp hAll
  obtain ⟨s', hRun', hs⟩ := ok_of_toOption_map hBefore
  cases hRun.symm.trans hRun'
  simp only [Session.observe, Prod.mk.injEq] at hs ht
  obtain ⟨hStart, hSent, -⟩ := hs
  obtain ⟨-, hSent', hOrigins⟩ := ht
  obtain ⟨c, hCaller, hStart⟩ := Option.map_eq_some_iff.mp hStart
  refine ⟨s, t, c, [nodeEndpoint oldNode, nodeEndpoint oldNode], hRun,
    (run_singleton nodeTaken s).symm.trans hStep, hCaller, hStart, ?_, List.mem_cons_self,
    fun e he => ?_⟩
  · rw [hSent, hSent']
    rfl
  · rw [hOrigins] at he
    simp only [List.mem_cons, Prod.mk.injEq, List.not_mem_nil, or_false] at he
    rcases he with ⟨rfl, -⟩ | ⟨rfl, -⟩ | ⟨-, hSame⟩
    · exact hStart ▸ Nat.one_pos
    · exact hStart ▸ Nat.one_pos
    · exact absurd hSame (by decide)

/-- Without the slot map, the scan talks to the new endpoint. -/
theorem commands_follow_definition_moved :
    letI := plainCache
    ∃ s t c, run Session.step (scanAfterMove []) (.start plainResidue clusterCatalog) = .ok s ∧
      Session.step (.call 1 (.acquire ⟨1, movedOptions⟩ plainUser true none) (answered 7)) s = .ok t ∧
      s.callers 1 = some c ∧ c.start = 1 ∧ ∃ eps, t.world.sent = s.world.sent ++ eps ∧
        ∀ ep ∈ eps, ∃ e, c.start ≤ e ∧ (e, ep) ∈ t.origins c.serverid := by
  let _ := plainCache
  refine ⟨_, _, _, rfl, rfl, rfl, rfl, ?_⟩
  refine @commands_follow_definition plainCache plainResidue clusterCatalog (scanAfterMove []) ?_ _ rfl
    1 (.acquire ⟨1, movedOptions⟩ plainUser true none) (answered 7) trivial _ rfl _ rfl
  refine ⟨trivial, fun s hs => ?_⟩
  cases hs
  refine ⟨trivial, fun s hs => ?_⟩
  cases hs
  refine ⟨trivial, fun s hs => ?_⟩
  cases hs
  exact ⟨fun _ => rfl, fun _ _ => ⟨trivial, fun _ _ => trivial⟩⟩

end ValkeyFdw.Pool
