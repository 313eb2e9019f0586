import ValkeyFdw.Pool.Lease

/-!
# What open connections are bound to

An open connection is bound to the definitions it was opened under: the endpoint of its
socket, the credentials it authenticated with, the node it was pointed at, and the hashes
by which a change of the catalog finds it. A bond is made when a connection is taken, is
marked when the catalog changes, and otherwise stays as it is until the connection is
closed (`bonds_of_step`). What has to hold of every open connection is proved from these
three cases.
-/

namespace ValkeyFdw.Pool

/-- What a socket is bound to when it is opened. -/
structure Bond where
  link : Link
  nodeHost : Bytes
  nodePort : Nat
  invalidated : Bool
  serverHashvalue : Nat
  mappingHashvalue : Nat

def Conn.bond (e : Conn) : Option Bond :=
  e.conn.map fun sock =>
    ⟨sock.link, e.nodeHost, e.nodePort, e.invalidated, e.serverHashvalue, e.mappingHashvalue⟩

/-- What an invalidation does to a bond. -/
def Bond.inval (cacheid : CacheId) (hashvalue : Nat) (b : Bond) : Bond :=
  if hashvalue = 0 || (cacheid = .foreignServer && b.serverHashvalue = hashvalue) ||
      (cacheid = .userMapping && b.mappingHashvalue = hashvalue) then
    { b with invalidated := true }
  else b

section Bonds

variable {e e' : Conn} {b : Bond}

theorem Conn.bond_of_closed (h : e.conn = none) : e.bond = none := by
  rw [bond, h, Option.map_none]

theorem Conn.bond_of_held (h : e'.held = e.held) : e'.bond = e.bond := by
  have hLink : e'.conn.map Socket.link = e.conn.map Socket.link := congrArg Held.link h
  have hHost : e'.nodeHost = e.nodeHost := congrArg Held.nodeHost h
  have hPort : e'.nodePort = e.nodePort := congrArg Held.nodePort h
  have hStale : e'.invalidated = e.invalidated := congrArg Held.invalidated h
  have hServer : e'.serverHashvalue = e.serverHashvalue := congrArg Held.serverHashvalue h
  have hMapping : e'.mappingHashvalue = e.mappingHashvalue := congrArg Held.mappingHashvalue h
  have hBond : ∀ e : Conn, e.bond = (e.conn.map Socket.link).map fun link =>
      ⟨link, e.nodeHost, e.nodePort, e.invalidated, e.serverHashvalue, e.mappingHashvalue⟩ := by
    intro e
    rw [Option.map_map]
    rfl
  rw [hBond, hBond, hLink, hHost, hPort, hStale, hServer, hMapping]

theorem bond_of_connSweep (h : (connSweep e).bond = some b) : e.bond = some b := by
  unfold connSweep at h
  split at h
  · exact h
  · split at h
    · cases h
    · exact h

theorem bond_of_connXact {event : XactEvent} (h : (connXact event e).bond = some b) :
    e.bond = some b := by
  cases event with
  | prepare => exact h
  | commit => exact bond_of_connSweep h
  | abort => exact bond_of_connSweep h

theorem bond_of_connSubxact {mySubid : Nat} (h : (connSubxact mySubid e).bond = some b) :
    e.bond = some b := by
  have hGiven : ∀ e' : Conn, (connGiveBack mySubid e').bond = e'.bond := by
    intro e'
    unfold connGiveBack
    split
    · rfl
    · rfl
  rw [connSubxact, hGiven] at h
  unfold connQuiet at h
  split at h
  · cases h
  · exact h

theorem bond_of_connInvalCallback (cacheid : CacheId) (hashvalue : Nat) :
    (connInvalCallback cacheid hashvalue e).bond = e.bond.map (Bond.inval cacheid hashvalue) := by
  unfold connInvalCallback
  split
  · rename_i hClosed
    rw [Conn.bond_of_closed hClosed, Option.map_none]
  · rename_i hOpen
    obtain ⟨sock, hSock⟩ := Option.ne_none_iff_exists'.mp hOpen
    unfold Conn.bond Bond.inval
    split
    · rename_i hHit
      simp only [hSock, Option.map_some]
      rw [if_pos hHit]
    · rename_i hMiss
      simp only [hSock, Option.map_some]
      rw [if_neg hMiss]

end Bonds

section Steps

variable [SysCache]

/-- The bond of a connection that was taken: it is not stale and has the hashes of the
definitions it was asked for with. Its socket is new, or it is one that was not stale. -/
structure Bond.Taken (server : ForeignServer) (user : UserMapping) (node : Option Node)
    (before : Option Bond) (b : Bond) : Prop where
  valid : b.invalidated = false
  serverHashvalue : b.serverHashvalue = SysCache.hashValue .foreignServer server.serverid
  mappingHashvalue : b.mappingHashvalue = SysCache.hashValue .userMapping user.umid
  own : node = none → b.nodeHost = []
  named : ∀ n, node = some n → n.host.length < maxNodeHost → b.nodeHost = n.host ∧ b.nodePort = n.port
  socket : (b.link.credentials = user.options ∧ b.link.endpoint =
      if b.nodeHost = [] then server.options.endpoint else ⟨b.nodeHost, b.nodePort, none⟩) ∨
    ∃ b₀, before = some b₀ ∧ b₀.invalidated = false ∧ b.link = b₀.link ∧
      b.nodeHost = b₀.nodeHost ∧ b.nodePort = b₀.nodePort

/-- The row that an event invalidates. -/
def Session.invalidates (s : Session) : Event → Option (CacheId × Nat)
  | .inval cacheid hashvalue => some (cacheid, hashvalue)
  | .alterServer serverid _ => some (.foreignServer, SysCache.hashValue .foreignServer serverid)
  | .changeMapping serverid who row => (s.changedRow serverid who row).map fun umid =>
      (.userMapping, SysCache.hashValue .userMapping umid)
  | _ => none

/-- Where the bond of an open connection comes from. -/
inductive Bonds (s : Session) (event : Event) (k : ConnKey) (b : Bond) : Prop
  | kept (hQuiet : s.invalidates event = none) (hBefore : (s.world.pool k).bond = some b)
  | marked (cacheid : CacheId) (hashvalue : Nat) (b₀ : Bond)
      (hInval : s.invalidates event = some (cacheid, hashvalue))
      (hBefore : (s.world.pool k).bond = some b₀) (hMarked : b = b₀.inval cacheid hashvalue)
  | taken (id : Nat) (server : ForeignServer) (user : UserMapping) (clusterAware : Bool)
      (node : Option Node) (waits : List Wait)
      (hEvent : event = .call id (.acquire server user clusterAware node) waits)
      (hKey : k.serverid = server.serverid ∧ k.userid = user.userid)
      (hResolved : s.resolved (.acquire server user clusterAware node) = true)
      (hTaken : Bond.Taken server user node (s.world.pool k).bond b)

variable {s t : Session}

variable {k : ConnKey} {w : World} {b : Bond} {server : ForeignServer} {user : UserMapping}
  {node : Option Node}

omit [SysCache] in
theorem Effect.bond {k' : ConnKey} {w' : World} {g : Option Gain} (h : Effect k w w' g)
    (hb : (w'.pool k').bond = some b) : (w.pool k').bond = some b := by
  by_cases hk : k' = k
  · subst hk
    cases h with
    | uses _ hUses _ => exact (Conn.bond_of_held hUses.held).symm.trans hb
    | asked map h hKey hMap hWorld => exact hWorld ▸ hb
    | loads w₁ map h hKey hUses hNone hWorld =>
      subst hWorld
      exact (Conn.bond_of_held hUses.held).symm.trans hb
    | releases hWorld =>
      subst hWorld
      rw [w.setConn_self] at hb
      exact hb
  · rwa [h.others hk] at hb

theorem Picked.taken {e : Conn} (h : Picked server user node w k e) (hb : e.bond = some b) :
    Bond.Taken server user node (w.pool k).bond b := by
  obtain ⟨sock, hSock, rfl⟩ := Option.map_eq_some_iff.mp hb
  refine ⟨h.invalidated, h.serverHashvalue, h.mappingHashvalue, h.own, h.named, .inr ?_⟩
  rcases h.socket with ⟨hClosed, -⟩ | ⟨hValid, hConn, -, hHost, hPort⟩
  · cases hClosed.symm.trans hSock
  · have hBefore : (w.pool k).bond = some ⟨sock.link, (w.pool k).nodeHost, (w.pool k).nodePort,
        (w.pool k).invalidated, (w.pool k).serverHashvalue, (w.pool k).mappingHashvalue⟩ := by
      rw [Conn.bond, ← hConn, hSock, Option.map_some]
    exact ⟨_, hBefore, hValid, rfl, hHost, hPort⟩

theorem Picked.opened {e : Conn} (h : Picked server user node w k e) (id : Nat)
    (hb : (e.opened id user.options).bond = some b) :
    Bond.Taken server user node (w.pool k).bond b := by
  obtain ⟨sock, hSock, rfl⟩ := Option.map_eq_some_iff.mp hb
  cases hSock
  refine ⟨h.invalidated, h.serverHashvalue, h.mappingHashvalue, h.own, h.named, .inl ⟨rfl, ?_⟩⟩
  change e.target = _
  rw [Conn.target, h.opts]
  rfl

theorem Taking.bond {clusterAware : Bool} {w' : World} {g : Option Gain}
    (h : Taking server user clusterAware node w w' g) {k' : ConnKey}
    (hb : (w'.pool k').bond = some b) :
    (w.pool k').bond = some b ∨ (k'.serverid = server.serverid ∧ k'.userid = user.userid) ∧
      Bond.Taken server user node (w.pool k').bond b := by
  -- Every entry but the one that is picked is as it was.
  have hCases : ∀ {k : ConnKey} {e : Conn}, picks server user node w = some (k, e) →
      (k' ≠ k → w'.pool k' = w.pool k') →
      (∀ b, (w'.pool k).bond = some b → Bond.Taken server user node (w.pool k).bond b) →
      (w.pool k').bond = some b ∨ (k'.serverid = server.serverid ∧ k'.userid = user.userid) ∧
        Bond.Taken server user node (w.pool k').bond b := by
    intro k e hPicks hOther hSame
    by_cases hk : k' = k
    · subst hk
      have hPicked := picked_of_picks hPicks
      exact .inr ⟨⟨hPicked.serverid, hPicked.userid⟩, hSame b hb⟩
    · exact .inl (hOther hk ▸ hb)
  cases h with
  | noSlots hPicks hWorld => exact .inl (hWorld ▸ hb)
  | refused k e hPicks hRefuses hWorld =>
    refine hCases hPicks (fun hk => hWorld ▸ w.setConn_of_ne e hk) fun b hb => ?_
    rw [hWorld, w.setConn_self] at hb
    exact (picked_of_picks hPicks).taken hb
  | unreached k e rest hPicks hNone hFails hWorld =>
    subst hWorld
    refine hCases hPicks (fun hk => w.setConn_of_ne e hk) fun b hb => ?_
    change ((w.setConn k e).pool k).bond = some b at hb
    rw [w.setConn_self] at hb
    exact (picked_of_picks hPicks).taken hb
  | opened k e _ hPicks hNone hUses hGain =>
    refine hCases hPicks (fun hk => (hUses.others k' hk).trans
      (((w.setConn k e).setConn_of_ne _ hk).trans (w.setConn_of_ne e hk))) fun b hb => ?_
    rw [Conn.bond_of_held hUses.held] at hb
    refine (picked_of_picks hPicks).opened (w.setConn k e).opens ?_
    rw [World.open] at hb
    simpa using hb
  | reused k e hPicks hOpen hWorld =>
    refine hCases hPicks (fun hk => hWorld ▸ w.setConn_of_ne e hk) fun b hb => ?_
    rw [hWorld, w.setConn_self] at hb
    exact (picked_of_picks hPicks).taken hb

/-- A connection that is handed over is open, and bound to what it was asked for with. -/
theorem Taking.hands {clusterAware : Bool} {w' : World} {g : Gain}
    (h : Taking server user clusterAware node w w' (some g)) :
    ∃ k b, g = .of (.taken k) ∧ (k.serverid = server.serverid ∧ k.userid = user.userid) ∧
      (w'.pool k).bond = some b ∧ Bond.Taken server user node (w.pool k).bond b := by
  cases h with
  | opened k e _ hPicks hNone hUses hGain =>
    have hPicked := picked_of_picks hPicks
    obtain ⟨b, hb⟩ : ∃ b, (e.opened (w.setConn k e).opens user.options).bond = some b := ⟨_, rfl⟩
    refine ⟨k, b, hGain g rfl, ⟨hPicked.serverid, hPicked.userid⟩, ?_, hPicked.opened _ hb⟩
    rw [Conn.bond_of_held hUses.held, World.open]
    simpa using hb
  | reused k e hPicks hOpen hWorld =>
    have hPicked := picked_of_picks hPicks
    obtain ⟨sock, hSock⟩ := Option.ne_none_iff_exists'.mp hOpen
    have hb : e.bond = some ⟨sock.link, e.nodeHost, e.nodePort, e.invalidated, e.serverHashvalue,
        e.mappingHashvalue⟩ := by
      rw [Conn.bond, hSock, Option.map_some]
    refine ⟨k, _, rfl, ⟨hPicked.serverid, hPicked.userid⟩, ?_, hPicked.taken hb⟩
    rw [hWorld, w.setConn_self]
    exact hb

omit [SysCache] in
theorem bond_of_inval {cacheid : CacheId} {hashvalue : Nat}
    (hb : ((s.inval cacheid hashvalue).world.pool k).bond = some b) :
    ∃ b₀, (s.world.pool k).bond = some b₀ ∧ b = b₀.inval cacheid hashvalue := by
  change (connInvalCallback cacheid hashvalue (s.world.pool k)).bond = some b at hb
  rw [bond_of_connInvalCallback] at hb
  obtain ⟨b₀, hBefore, rfl⟩ := Option.map_eq_some_iff.mp hb
  exact ⟨b₀, hBefore, rfl⟩

theorem bonds_of_step {event : Event} (hStep : Session.step event s = .ok t)
    (hb : (t.world.pool k).bond = some b) : Bonds s event k b := by
  cases Session.moves_of_step hStep with
  | enter id serverid soft hNew => exact .kept rfl hb
  | call id call waits c w g hCalled =>
    rcases hCalled.cases with ⟨h, hHold, hEffect⟩ | ⟨server, user, aware, node, rfl, -, -, -, hTaking⟩
    · exact .kept rfl (hEffect.bond hb)
    · rcases hTaking.bond hb with hBefore | ⟨hKey, hTaken⟩
      · exact .kept rfl hBefore
      · exact .taken id server user aware node waits rfl hKey hCalled.resolved hTaken
  | moved serverid userid => exact .kept rfl hb
  | startSub hRunning => exact .kept rfl hb
  | commitSub parent subs hRunning hSubs => exact .kept rfl hb
  | abortSub parent subs hSubs => exact .kept rfl (bond_of_connSubxact hb)
  | endTop event hSubs => exact .kept rfl (bond_of_connXact hb)
  | inval cacheid hashvalue =>
    obtain ⟨b₀, hBefore, hMarked⟩ := bond_of_inval hb
    exact .marked cacheid hashvalue b₀ rfl hBefore hMarked
  | alterServer serverid options =>
    obtain ⟨b₀, hBefore, hMarked⟩ := bond_of_inval hb
    exact .marked _ _ b₀ rfl hBefore hMarked
  | changeMapping serverid who row umid hRow =>
    obtain ⟨b₀, hBefore, hMarked⟩ := bond_of_inval hb
    refine .marked _ _ b₀ ?_ hBefore hMarked
    rw [Session.invalidates, hRow, Option.map_some]

omit [SysCache] in
theorem bond_start (residue : ConnKey → Conn) (catalog : Catalog) (k : ConnKey) :
    ((Session.start residue catalog).world.pool k).bond = none := rfl

end Steps

end ValkeyFdw.Pool
