import ValkeyFdw.Pool.Session

/-!
# Leases and transactions

The end of a transaction gives back the leases of connections that have a socket, and of
those only. A lease on a connection without one is kept for the life of the backend. It
comes from a connection that was taken and could not be opened, and from a subtransaction
that was rolled back while another's connection was in conversation: the sweep closes it
and leaves its lease. `no_lease_outlives_transaction` says that nothing else does.

`abort_gives_back_iff` says when the rollback of a subtransaction gives back its own leases
and leaves the connections of the scans around it alone.
-/

namespace ValkeyFdw.Pool

open Trace

/-! ## What the sweeps do to an entry -/

section Sweeps

variable (cacheid : CacheId) (hashvalue mySubid : Nat) (e : Conn)

theorem connInvalCallback_eq :
    ∃ stale, connInvalCallback cacheid hashvalue e = { e with invalidated := stale } := by
  unfold connInvalCallback
  split
  · exact ⟨e.invalidated, rfl⟩
  · split
    · exact ⟨true, rfl⟩
    · exact ⟨e.invalidated, rfl⟩

@[simp] theorem connInvalCallback_leased :
    (connInvalCallback cacheid hashvalue e).leased = e.leased := by
  obtain ⟨_, h⟩ := connInvalCallback_eq cacheid hashvalue e
  rw [h]

@[simp] theorem connInvalCallback_conn :
    (connInvalCallback cacheid hashvalue e).conn = e.conn := by
  obtain ⟨_, h⟩ := connInvalCallback_eq cacheid hashvalue e
  rw [h]

@[simp] theorem connInvalCallback_leaseSubid :
    (connInvalCallback cacheid hashvalue e).leaseSubid = e.leaseSubid := by
  obtain ⟨_, h⟩ := connInvalCallback_eq cacheid hashvalue e
  rw [h]

theorem connQuiet_leased : (connQuiet e).leased = e.leased := by
  unfold connQuiet
  split <;> rfl

theorem connQuiet_leaseSubid : (connQuiet e).leaseSubid = e.leaseSubid := by
  unfold connQuiet
  split <;> rfl

theorem connQuiet_conn : (connQuiet e).conn = if e.inConversation then none else e.conn := by
  unfold connQuiet
  cases hConn : e.conn with
  | none => simp [hConn]
  | some sock => cases hMarked : e.inConversation <;> simp [hConn, connClose]

theorem connGiveBack_conn : (connGiveBack mySubid e).conn = e.conn := by
  unfold connGiveBack
  split <;> rfl

theorem connGiveBack_leased :
    (connGiveBack mySubid e).leased = (e.leased && decide (e.leaseSubid ≠ mySubid)) := by
  unfold connGiveBack
  split
  · rename_i hMine
    simp [hMine]
  · rename_i hOther
    cases hLeased : e.leased with
    | false => rfl
    | true => simpa [hLeased] using hOther

theorem connSubxact_leased :
    (connSubxact mySubid e).leased = (e.leased && decide (e.leaseSubid ≠ mySubid)) := by
  rw [connSubxact, connGiveBack_leased, connQuiet_leased, connQuiet_leaseSubid]

theorem connSubxact_conn :
    (connSubxact mySubid e).conn = if e.inConversation then none else e.conn := by
  rw [connSubxact, connGiveBack_conn, connQuiet_conn]

theorem connSubxact_kept {mySubid : Nat} {e : Conn} (h : (connSubxact mySubid e).leased = true) :
    e.leased = true ∧ (connSubxact mySubid e).leaseSubid = e.leaseSubid := by
  rw [connSubxact_leased, Bool.and_eq_true, decide_eq_true_eq] at h
  refine ⟨h.1, ?_⟩
  rw [connSubxact, connGiveBack, if_neg fun hMine => h.2 (connQuiet_leaseSubid e ▸ hMine.2)]
  exact connQuiet_leaseSubid e

theorem connSubxact_eq_self_iff : connSubxact mySubid e = e ↔
    (e.conn = none ∨ e.inConversation = false) ∧
      (e.leased = false ∨ e.leaseSubid ≠ mySubid) := by
  constructor
  · intro hSelf
    have hConn := connSubxact_conn mySubid e
    have hLeased := connSubxact_leased mySubid e
    rw [hSelf] at hConn hLeased
    constructor
    · cases hMarked : e.inConversation with
      | false => exact .inr rfl
      | true => exact .inl (by simpa [hMarked] using hConn)
    · cases hHeld : e.leased with
      | false => exact .inl rfl
      | true => exact .inr (by simpa [hHeld] using hLeased)
  · rintro ⟨hQuiet, hOther⟩
    have hOpen : connQuiet e = e := if_neg (by rcases hQuiet with h | h <;> simp [h])
    rw [connSubxact, hOpen]
    exact if_neg (by rcases hOther with h | h <;> simp [h])

/-- The end of a transaction leaves no lease on a connection with a socket. -/
theorem connSweep_leased (h : e.conn = none → e.leased = false) : (connSweep e).leased = false := by
  unfold connSweep
  split
  · rename_i hNone
    exact h hNone
  · rfl

end Sweeps

/-! ## Leases end with their transaction -/

section Leases

variable {s t : Session}

/-- A lease without a socket is that of the subtransaction that is being rolled back. -/
def Session.Bare (s : Session) : Prop :=
  ∀ k, (s.world.pool k).leased = true → (s.world.pool k).conn = none →
    s.failed = true ∧ s.subs ≠ [] ∧ (s.world.pool k).leaseSubid = s.world.subid

theorem Session.Bare.free (h : s.Bare) (hSafe : s.failed = false ∨ s.subs = []) (k : ConnKey)
    (hClosed : (s.world.pool k).conn = none) : (s.world.pool k).leased = false := by
  rw [← Bool.not_eq_true]
  intro hLeased
  obtain ⟨hFailed, hSubs, -⟩ := h k hLeased hClosed
  rcases hSafe with hSafe | hSafe
  · rw [hSafe] at hFailed
    cases hFailed
  · exact hSubs hSafe

theorem Uses.bareless {k : ConnKey} {w w' : World} (h : Uses k w w')
    (hBare : ∀ k, (w.pool k).conn = none → (w.pool k).leased = false) (k' : ConnKey)
    (hClosed : (w'.pool k').conn = none) : (w'.pool k').leased = false := by
  by_cases hk : k' = k
  · subst hk
    have hSome := Conn.isSome_of_held h.held
    rw [hClosed, Option.isSome_none, eq_comm, Option.isSome_eq_false_iff,
      Option.isNone_iff_eq_none] at hSome
    exact (congrArg Held.leased h.held).trans (hBare k' hSome)
  · rw [h.others k' hk] at hClosed ⊢
    exact hBare k' hClosed

theorem Effect.bareless {k : ConnKey} {w w' : World} {g : Option Gain} (h : Effect k w w' g)
    (hBare : ∀ k, (w.pool k).conn = none → (w.pool k).leased = false) (k' : ConnKey)
    (hClosed : (w'.pool k').conn = none) : (w'.pool k').leased = false := by
  cases h with
  | uses _ hUses _ => exact hUses.bareless hBare k' hClosed
  | asked map h hKey hMap hWorld =>
    subst hWorld
    exact hBare k' hClosed
  | loads w₁ map h hKey hUses hNone hWorld =>
    subst hWorld
    exact hUses.bareless hBare k' hClosed
  | releases hWorld =>
    subst hWorld
    by_cases hk : k' = k
    · subst hk
      simp [connRelease]
    · rw [w.setConn_of_ne _ hk] at hClosed ⊢
      exact hBare k' hClosed

theorem Session.Bare.inval (h : s.Bare) (cacheid : CacheId) (hashvalue : Nat) :
    (s.inval cacheid hashvalue).Bare := by
  intro k hLeased hClosed
  simp only [Session.inval, World.overAll, connInvalCallback_leased, connInvalCallback_conn,
    connInvalCallback_leaseSubid] at hLeased hClosed ⊢
  exact h k hLeased hClosed

theorem Session.bare_start (residue : ConnKey → Conn) (catalog : Catalog) :
    (Session.start residue catalog).Bare := fun _ hLeased _ => by cases hLeased

variable [SysCache]

/-- Taking a connection fails before it has a socket. -/
def FailsBare (w : World) (server : ForeignServer) (user : UserMapping) (clusterAware : Bool)
    (node : Option Node) : Prop :=
  ∃ k e, picks server user node w = some (k, e) ∧ e.conn = none ∧
    (refuses server user clusterAware = true ∨ ¬w.Answered)

/-- A connection is taken and fails without a socket only where a subtransaction is rolled
back for it, no subtransaction is rolled back while a connection of another is in
conversation, and nothing is leased when a transaction is prepared. -/
def LeaseSafe (s : Session) : Event → Prop
  | .call id (.acquire server user clusterAware node) waits =>
    FailsBare { s.world with waits } server user clusterAware node →
      s.subs ≠ [] ∧ ∀ c, s.callers id = some c → c.soft = false
  | .abortSub => ∀ k, (s.world.pool k).leased = true → (s.world.pool k).conn ≠ none →
      (s.world.pool k).inConversation = true → (s.world.pool k).leaseSubid = s.world.subid
  | .endTop .prepare => ∀ k, (s.world.pool k).leased = false
  | _ => True

/-- Taking a connection leaves a lease without a socket only where it fails. -/
theorem Taking.bare {server : ForeignServer} {user : UserMapping} {clusterAware : Bool}
    {node : Option Node} {w w' : World} {g : Option Gain}
    (h : Taking server user clusterAware node w w' g)
    (hBare : ∀ k, (w.pool k).conn = none → (w.pool k).leased = false) (k' : ConnKey)
    (hLeased : (w'.pool k').leased = true) (hClosed : (w'.pool k').conn = none) :
    FailsBare w server user clusterAware node ∧ g = none ∧
      (w'.pool k').leaseSubid = w.subid ∧ w'.subid = w.subid := by
  -- Every entry but the one that is taken is as it was.
  have hOther : ∀ {k : ConnKey} {pool : ConnKey → Conn}, (∀ k', k' ≠ k → pool k' = w.pool k') →
      (pool k').leased = true → (pool k').conn = none → k' = k := by
    intro k pool hSame hLeased hClosed
    by_contra hk
    rw [hSame k' hk] at hLeased hClosed
    rw [hBare k' hClosed] at hLeased
    cases hLeased
  cases h with
  | noSlots hPicks hWorld =>
    subst hWorld
    rw [hBare k' hClosed] at hLeased
    cases hLeased
  | refused k e hPicks hRefuses hWorld =>
    subst hWorld
    obtain rfl := hOther (fun k' => w.setConn_of_ne e) hLeased hClosed
    rw [World.setConn_self] at hClosed ⊢
    exact ⟨⟨k', e, hPicks, hClosed, .inl hRefuses⟩, rfl, (picked_of_picks hPicks).leaseSubid, rfl⟩
  | unreached k e rest hPicks hNone hFails hWorld =>
    subst hWorld
    obtain rfl := hOther (fun k' => w.setConn_of_ne e) hLeased hClosed
    refine ⟨⟨k', e, hPicks, hNone, .inr hFails⟩, rfl, ?_, rfl⟩
    exact (congrArg Conn.leaseSubid (w.setConn_self k' e)).trans (picked_of_picks hPicks).leaseSubid
  | opened k e _ hPicks hNone hUses _ =>
    have hSome := Conn.isSome_of_held hUses.held
    obtain rfl := hOther (k := k) (fun k' hk => (hUses.others k' hk).trans
      (((w.setConn k e).setConn_of_ne _ hk).trans (w.setConn_of_ne e hk))) hLeased hClosed
    rw [hClosed] at hSome
    simp [World.open, Conn.opened] at hSome
  | reused k e hPicks hOpen hWorld =>
    subst hWorld
    obtain rfl := hOther (fun k' => w.setConn_of_ne e) hLeased hClosed
    rw [World.setConn_self] at hClosed
    exact absurd hClosed hOpen

theorem Session.Bare.step {event : Event} (h : s.Bare) (hSafe : LeaseSafe s event)
    (hStep : Session.step event s = .ok t) : t.Bare := by
  cases Session.moves_of_step hStep with
  | enter id serverid soft hNew => exact h
  | call id call waits c w g hCalled =>
    have hBare := h.free (.inl hCalled.running)
    intro k hLeased hClosed
    rcases hCalled.cases with ⟨h', -, hEffect⟩ | ⟨server, user, aware, node, rfl, -, -, -, hTaking⟩
    · have hFree := hEffect.bareless hBare k hClosed
      exact absurd (hLeased.symm.trans hFree) nofun
    · obtain ⟨hFails, rfl, hSubid, hSame⟩ := hTaking.bare hBare k hLeased hClosed
      obtain ⟨hSubs, hHard⟩ := hSafe hFails
      refine ⟨?_, hSubs, hSubid.trans hSame.symm⟩
      simp [Session.settle, hHard c hCalled.caller]
  | moved serverid userid => exact h
  | startSub hRunning =>
    intro k hLeased hClosed
    exact absurd (hLeased.symm.trans (h.free (.inl hRunning) k hClosed)) nofun
  | commitSub parent subs hRunning hSubs =>
    intro k hLeased hClosed
    exact absurd (hLeased.symm.trans (h.free (.inl hRunning) k hClosed)) nofun
  | abortSub parent subs hSubs =>
    intro k hLeased hClosed
    -- What is left leased is not the subtransaction's own, so it was neither without a
    -- socket before nor closed now.
    change (connSubxact s.world.subid (s.world.pool k)).leased = true at hLeased
    change (connSubxact s.world.subid (s.world.pool k)).conn = none at hClosed
    rw [connSubxact_leased, Bool.and_eq_true, decide_eq_true_eq] at hLeased
    obtain ⟨hLeased, hOther⟩ := hLeased
    by_cases hConn : (s.world.pool k).conn = none
    · exact absurd (h k hLeased hConn).2.2 hOther
    · rw [connSubxact_conn] at hClosed
      split at hClosed
      · rename_i hMarked
        exact absurd (hSafe k hLeased hConn hMarked) hOther
      · exact absurd hClosed hConn
  | endTop event hSubs =>
    intro k hLeased _
    have hFree : (connXact event (s.world.pool k)).leased = false := by
      cases event with
      | prepare => exact hSafe k
      | commit => exact connSweep_leased _ (h.free (.inr hSubs) k)
      | abort => exact connSweep_leased _ (h.free (.inr hSubs) k)
    exact absurd (hLeased.symm.trans hFree) nofun
  | inval cacheid hashvalue => exact h.inval cacheid hashvalue
  | alterServer serverid options =>
    exact Session.Bare.inval (s := s.alterServer serverid options) h _ _
  | changeMapping serverid who row umid hRow =>
    exact Session.Bare.inval (s := s.changeMapping serverid who row) h _ _

theorem picks_isSome (server : ForeignServer) (user : UserMapping) (node : Option Node) {w : World}
    (h : ∀ k, (w.pool k).leased = false) : (picks server user node w).isSome = true := by
  rw [picks, Option.isSome_map]
  exact freeSlotFrom_isSome (.inl ⟨0, List.mem_range.mpr (by decide), h _⟩)

/-- In every run whose steps are safe, nothing is leased after the end of a transaction, and
every identity finds a slot. -/
theorem no_lease_outlives_transaction (residue : ConnKey → Conn) (catalog : Catalog)
    (events : List Event) (hSafe : Along Session.step LeaseSafe events (.start residue catalog))
    {s : Session} (hRun : run Session.step events (.start residue catalog) = .ok s)
    (event : XactEvent) (hLast : LeaseSafe s (.endTop event))
    {t : Session} (hEnd : Session.step (.endTop event) s = .ok t) :
    (∀ k, (t.world.pool k).leased = false) ∧
      ∀ server user node, (picks server user node t.world).isSome = true := by
  have hBare : s.Bare := hSafe.run_invariant (fun _ _ _ _ h hSafe hStep => h.step hSafe hStep)
    (Session.bare_start residue catalog) hRun
  have hAfter : t.Bare := hBare.step hLast hEnd
  have hFree : ∀ k, (t.world.pool k).leased = false := by
    intro k
    cases Session.moves_of_step hEnd with
    | endTop _ hSubs =>
      cases event with
      | prepare => exact hLast k
      | commit => exact connSweep_leased _ (hBare.free (.inr hSubs) k)
      | abort => exact connSweep_leased _ (hBare.free (.inr hSubs) k)
  exact ⟨hFree, fun server user node => picks_isSome server user node hFree⟩

end Leases

/-! ## What a rollback gives back -/

section Rollback

variable {s t : Session}

/-- A lease after a call is an old one, or a new one of the current subtransaction. -/
def Leases (w w' : World) : Prop :=
  w'.subid = w.subid ∧ ∀ k, (w'.pool k).leased = true →
    ((w.pool k).leased = true ∧ (w'.pool k).leaseSubid = (w.pool k).leaseSubid) ∨
      ((w.pool k).leased = false ∧ (w'.pool k).leaseSubid = w.subid)

variable {w : World} {g : Option Gain}

theorem Uses.leases {k : ConnKey} {w' : World} (h : Uses k w w') : Leases w w' := by
  refine ⟨h.subid, fun k' hLeased => .inl ?_⟩
  by_cases hk : k' = k
  · subst hk
    exact ⟨(congrArg Held.leased h.held).symm.trans hLeased, congrArg Held.leaseSubid h.held⟩
  · rw [h.others k' hk] at hLeased ⊢
    exact ⟨hLeased, rfl⟩

theorem Effect.leases {k : ConnKey} {w' : World} (h : Effect k w w' g) :
    Leases w w' := by
  cases h with
  | uses _ hUses _ => exact hUses.leases
  | asked map h hKey hMap hWorld => exact hWorld ▸ ⟨rfl, fun _ hLeased => .inl ⟨hLeased, rfl⟩⟩
  | loads w₁ map h hKey hUses hNone hWorld => exact hWorld ▸ hUses.leases
  | releases hWorld =>
    subst hWorld
    refine ⟨rfl, fun k' hLeased => .inl ?_⟩
    by_cases hk : k' = k
    · subst hk
      simp [connRelease] at hLeased
    · rw [w.setConn_of_ne _ hk] at hLeased ⊢
      exact ⟨hLeased, rfl⟩

namespace Session

/-- The subtransactions that are open, innermost first. -/
def live (s : Session) : List Nat := s.world.subid :: s.subs

/-- A lease that was taken in this transaction, under the number of a subtransaction that is
still open, is answered for by that one. -/
structure Owned (s : Session) : Prop where
  nodup : s.live.Nodup
  bounds : ∀ sub ∈ s.live, invalidSubid < sub ∧ sub < s.nextSub
  lease_lt : ∀ k, (s.world.pool k).leased = true → s.owner k ≠ invalidSubid →
    (s.world.pool k).leaseSubid < s.nextSub
  owner_eq : ∀ k, (s.world.pool k).leased = true → s.owner k ≠ invalidSubid →
    (s.world.pool k).leaseSubid ∈ s.live → s.owner k = (s.world.pool k).leaseSubid

theorem owned_of_top (hLive : s.live = [topSubid]) (hNext : s.nextSub = topSubid + 1)
    (hNobody : ∀ k, s.owner k = invalidSubid) : s.Owned where
  nodup := hLive ▸ List.nodup_singleton topSubid
  bounds sub hSub := by
    rw [hLive, List.mem_singleton] at hSub
    rw [hSub, hNext]
    decide
  lease_lt k _ hOwned := absurd (hNobody k) hOwned
  owner_eq k _ hOwned := absurd (hNobody k) hOwned

variable (h : s.Owned)

include h

theorem Owned.of_leases (hLive : t.live.Sublist s.live) (hNext : t.nextSub = s.nextSub)
    (hLeases : ∀ k, (t.world.pool k).leased = true →
      (s.world.pool k).leased = true ∧ (t.world.pool k).leaseSubid = (s.world.pool k).leaseSubid)
    (hOwner : ∀ k, t.owner k = s.owner k) : t.Owned where
  nodup := h.nodup.sublist hLive
  bounds sub hSub := hNext ▸ h.bounds sub (hLive.subset hSub)
  lease_lt k hLeased hOwned := by
    obtain ⟨hLeased, hSubid⟩ := hLeases k hLeased
    rw [hSubid, hNext]
    exact h.lease_lt k hLeased (hOwner k ▸ hOwned)
  owner_eq k hLeased hOwned hLive' := by
    obtain ⟨hLeased, hSubid⟩ := hLeases k hLeased
    rw [hSubid] at hLive' ⊢
    exact (hOwner k).trans (h.owner_eq k hLeased (hOwner k ▸ hOwned) (hLive.subset hLive'))

theorem Owned.inval (cacheid : CacheId) (hashvalue : Nat) :
    (s.inval cacheid hashvalue).Owned := by
  refine h.of_leases (.refl _) rfl (fun k hLeased => ?_) fun _ => rfl
  simpa [Session.inval, World.overAll] using hLeased

theorem Owned.settle {id : Nat} {c : Caller} (hLeases : Leases s.world w) :
    (s.settle id c w g).Owned := by
  obtain ⟨hSubid, hLeases⟩ := hLeases
  have hLive : (s.settle id c w g).live = s.live := congrArg (· :: s.subs) hSubid
  refine ⟨hLive ▸ h.nodup, hLive ▸ h.bounds, fun k hLeased hOwned => ?_,
    fun k hLeased hOwned hMem => ?_⟩
  · rcases hLeases k hLeased with ⟨hBefore, hSame⟩ | ⟨hFree, hNew⟩
    · rw [show (s.settle id c w g).owner k = s.owner k from if_neg (by simp [hBefore])] at hOwned
      exact hSame ▸ h.lease_lt k hBefore hOwned
    · exact hNew ▸ (h.bounds _ List.mem_cons_self).2
  · rcases hLeases k hLeased with ⟨hBefore, hSame⟩ | ⟨hFree, hNew⟩
    · have hOld : (s.settle id c w g).owner k = s.owner k := if_neg (by simp [hBefore])
      rw [hLive] at hMem
      rw [hOld] at hOwned ⊢
      exact (h.owner_eq k hBefore hOwned (hSame ▸ hMem)).trans hSame.symm
    · have hHere : (s.settle id c w g).owner k = w.subid := if_pos (by
        have hLeased : (w.pool k).leased = true := hLeased
        simp [hLeased, hFree])
      exact hHere.trans (hSubid.trans hNew.symm)

theorem Owned.startSub : s.startSub.Owned := by
  refine ⟨?_, fun sub hSub => ?_, fun k hLeased hOwned => ?_, fun k hLeased hOwned hMem => ?_⟩
  · refine List.nodup_cons.mpr ⟨fun hMem => ?_, h.nodup⟩
    exact Nat.lt_irrefl _ (h.bounds _ hMem).2
  · rcases List.mem_cons.mp hSub with rfl | hSub
    · exact ⟨(h.bounds _ List.mem_cons_self).1.trans (h.bounds _ List.mem_cons_self).2,
        Nat.lt_succ_self _⟩
    · exact ⟨(h.bounds sub hSub).1, Nat.lt_succ_of_lt (h.bounds sub hSub).2⟩
  · exact Nat.lt_succ_of_lt (h.lease_lt k hLeased hOwned)
  · rcases List.mem_cons.mp hMem with hNew | hMem
    · exact absurd (h.lease_lt k hLeased hOwned) (hNew ▸ Nat.lt_irrefl _)
    · exact h.owner_eq k hLeased hOwned hMem

theorem Owned.commitSub {parent : Nat} {subs : List Nat} (hSubs : s.subs = parent :: subs) :
    (s.commitSub parent subs).Owned := by
  have hLive : (s.commitSub parent subs).live = s.subs := hSubs.symm
  have hMine : s.world.subid ∉ s.subs := (List.nodup_cons.mp h.nodup).1
  -- A lease of nobody's stays one: the subtransaction is not nobody.
  have hOwned : ∀ k, (s.commitSub parent subs).owner k ≠ invalidSubid → s.owner k ≠ invalidSubid := by
    intro k hOwned hNobody
    refine hOwned ((if_neg ?_).trans hNobody)
    rw [hNobody]
    exact (h.bounds _ List.mem_cons_self).1.ne
  refine ⟨hLive ▸ (List.nodup_cons.mp h.nodup).2, fun sub hSub => ?_,
    fun k hLeased hOwner => h.lease_lt k hLeased (hOwned k hOwner), fun k hLeased hOwner hMem => ?_⟩
  · exact h.bounds sub (List.mem_cons_of_mem _ (hLive ▸ hSub))
  · rw [hLive] at hMem
    have hEq := h.owner_eq k hLeased (hOwned k hOwner) (List.mem_cons_of_mem _ hMem)
    refine (if_neg fun hEnds => hMine ?_).trans hEq
    rw [← hEnds, hEq]
    exact hMem

omit h

theorem owned_start (residue : ConnKey → Conn) (catalog : Catalog) :
    (Session.start residue catalog).Owned := Session.owned_of_top rfl rfl fun _ => rfl

/-- The callers around the subtransaction that is rolled back hold connections that are not
in conversation and were not taken under its number. -/
def AbortSafe (s : Session) : Prop :=
  ∀ id c h, s.callers id = some c → c.owner ≠ s.world.subid → c.hold = some h →
    ((s.world.pool h.key).conn = none ∨ (s.world.pool h.key).inConversation = false) ∧
      ((s.world.pool h.key).leased = false ∨ (s.world.pool h.key).leaseSubid ≠ s.world.subid)

end Session

variable [SysCache]

/-- The entry that is taken gets the only new lease. -/
theorem Taking.leases {server : ForeignServer} {user : UserMapping} {clusterAware : Bool}
    {node : Option Node} {w' : World} (h : Taking server user clusterAware node w w' g) :
    Leases w w' := by
  rcases h.picked with ⟨rfl, -⟩ | ⟨k, e, hPicks, hSubid, hOthers, -, hTaken, -⟩
  · exact ⟨rfl, fun _ hLeased => .inl ⟨hLeased, rfl⟩⟩
  · refine ⟨hSubid, fun k' hLeased => ?_⟩
    by_cases hk : k' = k
    · subst hk
      exact .inr ⟨(picked_of_picks hPicks).free, hTaken⟩
    · rw [hOthers k' hk] at hLeased ⊢
      exact .inl ⟨hLeased, rfl⟩

theorem Session.Called.leases {id : Nat} {call : Call} {waits : List Wait} {c : Caller}
    (h : Session.Called s id call waits c w g) : Leases s.world w := by
  rcases h.cases with ⟨_, -, hEffect⟩ | ⟨_, _, _, _, -, -, -, -, hTaking⟩
  · exact hEffect.leases
  · exact hTaking.leases

theorem Session.Owned.step {event : Event} (h : s.Owned) (hStep : Session.step event s = .ok t) :
    t.Owned := by
  cases Session.moves_of_step hStep with
  | enter id serverid soft hNew => exact ⟨h.nodup, h.bounds, h.lease_lt, h.owner_eq⟩
  | call id call waits c w g hCalled => exact h.settle hCalled.leases
  | moved serverid userid => exact ⟨h.nodup, h.bounds, h.lease_lt, h.owner_eq⟩
  | startSub hRunning => exact h.startSub
  | commitSub parent subs hRunning hSubs => exact h.commitSub hSubs
  | abortSub parent subs hSubs =>
    have hLive : (s.abortSub parent subs).live = s.subs := hSubs.symm
    refine h.of_leases ?_ rfl (fun k hLeased => ?_) fun _ => rfl
    · rw [hLive]
      exact List.sublist_cons_self s.world.subid s.subs
    · exact connSubxact_kept hLeased
  | endTop event hSubs =>
    exact Session.owned_of_top (congrArg (topSubid :: ·) hSubs) rfl fun _ => rfl
  | inval cacheid hashvalue => exact h.inval cacheid hashvalue
  | alterServer serverid options =>
    exact Session.Owned.inval (s := s.alterServer serverid options)
      ⟨h.nodup, h.bounds, h.lease_lt, h.owner_eq⟩ _ _
  | changeMapping serverid who row umid hRow =>
    exact Session.Owned.inval (s := s.changeMapping serverid who row)
      ⟨h.nodup, h.bounds, h.lease_lt, h.owner_eq⟩ _ _

/-- A rollback gives back exactly the leases that its subtransaction answers for, and leaves
the callers around it and their connections as they are, if and only if its leases were all
taken under its own number, no lease from before the transaction carries that number, and
the connections of the callers around it are safe from it. -/
theorem abort_gives_back_iff (residue : ConnKey → Conn) (catalog : Catalog) (events : List Event)
    {s : Session} (hRun : run Session.step events (.start residue catalog) = .ok s)
    {t : Session} (hAbort : Session.step .abortSub s = .ok t) :
    ((∀ k, (s.world.pool k).leased = true →
        ((t.world.pool k).leased = false ↔ s.owner k = s.world.subid)) ∧
      ∀ id c h, s.callers id = some c → c.owner ≠ s.world.subid → c.hold = some h →
        t.callers id = some c ∧ t.world.pool h.key = s.world.pool h.key) ↔
    (∀ k, (s.world.pool k).leased = true → s.owner k = s.world.subid →
        (s.world.pool k).leaseSubid = s.world.subid) ∧
      (∀ k, (s.world.pool k).leased = true → s.owner k = invalidSubid →
        (s.world.pool k).leaseSubid ≠ s.world.subid) ∧ s.AbortSafe := by
  have hOwned : s.Owned := Trace.run_invariant (fun _ _ _ _ h hStep => h.step hStep)
    (Session.owned_start residue catalog) hRun
  obtain ⟨parent, subs, -, rfl⟩ : ∃ parent subs, s.subs = parent :: subs ∧
      t = s.abortSub parent subs := by
    cases Session.moves_of_step hAbort with
    | abortSub parent subs hSubs => exact ⟨parent, subs, hSubs, rfl⟩
  have hGiven : ∀ k, (s.world.pool k).leased = true →
      (((s.abortSub parent subs).world.pool k).leased = false ↔
        (s.world.pool k).leaseSubid = s.world.subid) := by
    intro k hLeased
    change (connSubxact s.world.subid (s.world.pool k)).leased = false ↔ _
    simp [connSubxact_leased, hLeased]
  have hStays : ∀ id c h, s.callers id = some c → c.owner ≠ s.world.subid → c.hold = some h →
      ((s.abortSub parent subs).callers id = some c ∧
        (s.abortSub parent subs).world.pool h.key = s.world.pool h.key ↔
      ((s.world.pool h.key).conn = none ∨ (s.world.pool h.key).inConversation = false) ∧
        ((s.world.pool h.key).leased = false ∨
          (s.world.pool h.key).leaseSubid ≠ s.world.subid)) := by
    intro id c h hCaller hOuter _
    have hThere : (s.abortSub parent subs).callers id = some c := by
      simp [Session.abortSub, hCaller, hOuter]
    simp only [hThere, true_and]
    exact connSubxact_eq_self_iff _ _
  constructor
  · rintro ⟨hExact, hFrame⟩
    refine ⟨fun k hLeased hMine => ?_, fun k hLeased hNobody hSubid => ?_, ?_⟩
    · exact (hGiven k hLeased).mp ((hExact k hLeased).mpr hMine)
    · have hMine := (hExact k hLeased).mp ((hGiven k hLeased).mpr hSubid)
      exact (hOwned.bounds _ List.mem_cons_self).1.ne (hNobody.symm.trans hMine)
    · exact fun id c h hCaller hOuter hHold =>
        (hStays id c h hCaller hOuter hHold).mp (hFrame id c h hCaller hOuter hHold)
  · rintro ⟨hOwn, hStale, hCallers⟩
    refine ⟨fun k hLeased => (hGiven k hLeased).trans ⟨fun hSubid => ?_, hOwn k hLeased⟩, ?_⟩
    · by_cases hNobody : s.owner k = invalidSubid
      · exact absurd hSubid (hStale k hLeased hNobody)
      · exact (hOwned.owner_eq k hLeased hNobody (hSubid ▸ List.mem_cons_self)).trans hSubid
    · exact fun id c h hCaller hOuter hHold =>
        (hStays id c h hCaller hOuter hHold).mpr (hCallers id c h hCaller hOuter hHold)

end Rollback

/-! ## Connections of one's own -/

section Own

variable {s t : Session}

namespace Session

/-- What a caller holds is leased, and no two hold the same. -/
structure Apart (s : Session) : Prop where
  leased : ∀ id c h, s.callers id = some c → c.hold = some h →
    (s.world.pool h.key).leased = true
  apart : ∀ id id' c c' h h', s.callers id = some c → s.callers id' = some c' →
    c.hold = some h → c'.hold = some h' → h.key = h'.key → id = id'

theorem apart_of_nobody (h : ∀ id, s.callers id = none) : s.Apart where
  leased id _ _ hCaller := by cases (h id).symm.trans hCaller
  apart id _ _ _ _ _ hCaller := by cases (h id).symm.trans hCaller

theorem Apart.of_callers (hs : s.Apart)
    (hCallers : ∀ id c h, t.callers id = some c → c.hold = some h →
      (∃ c', s.callers id = some c' ∧ c'.hold = some h) ∧
        ((s.world.pool h.key).leased = true → (t.world.pool h.key).leased = true)) : t.Apart := by
  refine ⟨fun id c h hCaller hHold => ?_, fun id₁ id₂ c₁ c₂ h₁ h₂ hCaller₁ hCaller₂ hHold₁
    hHold₂ => ?_⟩
  · obtain ⟨⟨c', hCaller', hHold'⟩, hStays⟩ := hCallers id c h hCaller hHold
    exact hStays (hs.leased id c' h hCaller' hHold')
  · obtain ⟨⟨c₁', hCaller₁', hHold₁'⟩, -⟩ := hCallers id₁ c₁ h₁ hCaller₁ hHold₁
    obtain ⟨⟨c₂', hCaller₂', hHold₂'⟩, -⟩ := hCallers id₂ c₂ h₂ hCaller₂ hHold₂
    exact hs.apart id₁ id₂ c₁' c₂' h₁ h₂ hCaller₁' hCaller₂' hHold₁' hHold₂'

/-- The entry that a call is about: no other caller holds it, and no other entry changes. -/
structure Touches (s : Session) (id : Nat) (w : World) (g : Option Gain) (k : ConnKey) :
    Prop where
  others : ∀ k', k' ≠ k → w.pool k' = s.world.pool k'
  alone : ∀ id' c' h', id' ≠ id → s.callers id' = some c' → c'.hold = some h' → h'.key ≠ k
  gained : ∀ g' h', g = some g' → g'.hold = some h' → h'.key = k ∧ (w.pool k).leased = true

variable {id : Nat} {c : Caller} {w : World} {g : Option Gain} {waits : List Wait}

theorem Apart.settle (hs : s.Apart) {k : ConnKey} (hTouches : s.Touches id w g k) :
    (s.settle id c w g).Apart := by
  have hOld : ∀ id' c', id' ≠ id → (s.settle id c w g).callers id' = some c' →
      s.callers id' = some c' := by
    intro id' c' hid hCaller
    rwa [s.settle_callers_of_ne c w g hid] at hCaller
  have hNew : ∀ c' h', (s.settle id c w g).callers id = some c' → c'.hold = some h' →
      h'.key = k ∧ (w.pool k).leased = true := by
    intro c' h' hCaller hHold
    rw [s.settle_callers_self] at hCaller
    obtain ⟨g', rfl, rfl⟩ := Option.map_eq_some_iff.mp hCaller
    exact hTouches.gained g' h' rfl hHold
  refine ⟨fun id' c' h' hCaller hHold => ?_, fun id₁ id₂ c₁ c₂ h₁ h₂ hCaller₁ hCaller₂ hHold₁ hHold₂
    hKey => ?_⟩
  · by_cases hid : id' = id
    · subst hid
      obtain ⟨hKey, hLeased⟩ := hNew c' h' hCaller hHold
      exact hKey.symm ▸ hLeased
    · have hBefore := hOld id' c' hid hCaller
      have hSame := hTouches.others h'.key (hTouches.alone id' c' h' hid hBefore hHold)
      exact hSame.symm ▸ hs.leased id' c' h' hBefore hHold
  · by_cases hid₁ : id₁ = id
    · by_cases hid₂ : id₂ = id
      · rw [hid₁, hid₂]
      · subst hid₁
        refine absurd ?_ (hTouches.alone id₂ c₂ h₂ hid₂ (hOld id₂ c₂ hid₂ hCaller₂) hHold₂)
        exact hKey.symm.trans (hNew c₁ h₁ hCaller₁ hHold₁).1
    · have hBefore₁ := hOld id₁ c₁ hid₁ hCaller₁
      by_cases hid₂ : id₂ = id
      · subst hid₂
        refine absurd ?_ (hTouches.alone id₁ c₁ h₁ hid₁ hBefore₁ hHold₁)
        exact hKey.trans (hNew c₂ h₂ hCaller₂ hHold₂).1
      · exact hs.apart id₁ id₂ c₁ c₂ h₁ h₂ hBefore₁ (hOld id₂ c₂ hid₂ hCaller₂) hHold₁ hHold₂ hKey

theorem Apart.touches (hs : s.Apart) {h : Hold} (hCaller : s.callers id = some c)
    (hHold : c.hold = some h) (hEffect : Effect h.key { s.world with waits } w g) :
    s.Touches id w g h.key where
  others k' hk := hEffect.others hk
  alone id' c' h' hid hCaller' hHold' hKey :=
    hid (hs.apart id' id c' c h' h hCaller' hCaller hHold' hHold hKey)
  gained := by
    rintro g' h' rfl hHold'
    obtain ⟨hKey, hHeld⟩ := hEffect.keeps hHold'
    exact ⟨hKey, (congrArg Held.leased hHeld).trans (hs.leased id c h hCaller hHold)⟩

theorem settle_none_callers {id' : Nat} {c' : Caller}
    (h : (s.settle id c w none).callers id' = some c') : s.callers id' = some c' := by
  by_cases hid : id' = id
  · subst hid
    rw [s.settle_callers_self] at h
    cases h
  · rwa [s.settle_callers_of_ne _ _ _ hid] at h

theorem abortSub_callers {parent : Nat} {subs : List Nat}
    (h : (s.abortSub parent subs).callers id = some c) :
    s.callers id = some c ∧ c.owner ≠ s.world.subid := by
  simpa [Session.abortSub, Option.filter_eq_some_iff] using h

theorem Apart.inval (hs : s.Apart) (cacheid : CacheId) (hashvalue : Nat) :
    (s.inval cacheid hashvalue).Apart := by
  refine hs.of_callers fun id c h hCaller hHold => ⟨⟨c, hCaller, hHold⟩, fun hLeased => ?_⟩
  simpa [Session.inval, World.overAll] using hLeased

theorem apart_start (residue : ConnKey → Conn) (catalog : Catalog) :
    (Session.start residue catalog).Apart := Session.apart_of_nobody fun _ => rfl

variable [SysCache]

/-- A call that takes a connection is about one that nobody held. -/
theorem Apart.touches_picked (hs : s.Apart) (id : Nat) {server : ForeignServer}
    {user : UserMapping} {node : Option Node} {k : ConnKey} {e : Conn}
    (hPicks : picks server user node { s.world with waits } = some (k, e))
    (hOthers : ∀ k', k' ≠ k → w.pool k' = s.world.pool k') (hLeased : (w.pool k).leased = true)
    (hGain : ∀ g' ∈ g, g' = .of (.taken k)) : s.Touches id w g k where
  others := hOthers
  alone := by
    rintro id' c' h' - hCaller' hHold' rfl
    have hTaken := hs.leased id' c' h' hCaller' hHold'
    exact absurd ((picked_of_picks hPicks).free.symm.trans hTaken) nofun
  gained := by
    rintro g' h' rfl hHold'
    cases hGain g' rfl
    cases hHold'
    exact ⟨rfl, hLeased⟩

theorem Apart.call (hs : s.Apart) {call : Call}
    (hCalled : Session.Called s id call waits c w g) :
    (s.settle id c w g).Apart := by
  rcases hCalled.cases with ⟨h, hHold, hEffect⟩ | ⟨server, user, aware, node, rfl, -, -, -, hTaking⟩
  · exact hs.settle (hs.touches hCalled.caller hHold hEffect)
  · rcases hTaking.picked with ⟨rfl, rfl⟩ | ⟨k, e, hPicks, -, hOthers, hLeased, -, hGain⟩
    · refine hs.of_callers fun id' c' h' hCaller hHold => ?_
      exact ⟨⟨c', Session.settle_none_callers hCaller, hHold⟩, fun hLeased => hLeased⟩
    · exact hs.settle (hs.touches_picked id hPicks hOthers hLeased hGain)

theorem Apart.step {event : Event} (hs : s.Apart) (hSafe : event = .abortSub → s.AbortSafe)
    (hStep : Session.step event s = .ok t) : t.Apart := by
  cases Session.moves_of_step hStep with
  | enter id serverid soft hNew =>
    refine hs.of_callers fun id' c' h' hCaller hHold => ?_
    rcases Session.enter_callers hCaller with rfl | hCaller
    · cases hHold
    · exact ⟨⟨c', hCaller, hHold⟩, fun hLeased => hLeased⟩
  | call id call waits c w g hCalled => exact hs.call hCalled
  | moved serverid userid => exact ⟨hs.leased, hs.apart⟩
  | startSub hRunning => exact ⟨hs.leased, hs.apart⟩
  | commitSub parent subs hRunning hSubs =>
    refine hs.of_callers fun id c h hCaller hHold => ?_
    obtain ⟨c', hCaller', rfl⟩ := Option.map_eq_some_iff.mp hCaller
    refine ⟨⟨c', hCaller', ?_⟩, fun hLeased => hLeased⟩
    split at hHold
    · exact hHold
    · exact hHold
  | abortSub parent subs hSubs =>
    refine hs.of_callers fun id c h hCaller hHold => ?_
    obtain ⟨hBefore, hOuter⟩ := Session.abortSub_callers hCaller
    refine ⟨⟨c, hBefore, hHold⟩, fun hLeased => ?_⟩
    have hSame := (connSubxact_eq_self_iff _ _).mpr (hSafe rfl id c h hBefore hOuter hHold)
    exact (congrArg Conn.leased hSame).trans hLeased
  | endTop event hSubs => exact Session.apart_of_nobody fun _ => rfl
  | inval cacheid hashvalue => exact hs.inval cacheid hashvalue
  | alterServer serverid options =>
    exact Session.Apart.inval (s := s.alterServer serverid options) ⟨hs.leased, hs.apart⟩ _ _
  | changeMapping serverid who row umid hRow =>
    exact Session.Apart.inval (s := s.changeMapping serverid who row) ⟨hs.leased, hs.apart⟩ _ _

end Session

end Own

/-! ## Failures that keep a slot -/

@[reducible] def plainCache : SysCache := ⟨fun _ oid => oid⟩

def plainOptions : ServerOptions := ⟨ascii "valkey", 6379, none, false, false, 100⟩

def plainServer : ForeignServer := ⟨1, plainOptions⟩

def plainUser : UserMapping := ⟨2, 3, true, ⟨none, none, true⟩⟩

def plainCatalog : Catalog := ⟨fun _ => plainOptions, fun _ _ => some (2, plainUser.options)⟩

/-- Memory that happens to be zero. -/
def plainResidue (_ : ConnKey) : Conn :=
  ⟨none, [], 0, plainOptions, false, 0, false, false, false, false, false, [], .unknown, 0, 0, 0⟩

def plainKey : ConnKey := ⟨1, 3, 0⟩

/-- A network that answers this often. -/
def answered (n : Nat) : List Wait := List.replicate n (.answers .other)

/-- A server that cannot be reached costs a slot: the lease is there after the abort. -/
def unreachable : List Event :=
  [.enter 0 1 false, .call 0 (.acquire plainServer plainUser false none) [.fails], .endTop .abort]

theorem unreachable_keeps_lease :
    letI := plainCache
    ∃ s, run Session.step unreachable (.start plainResidue plainCatalog) = .ok s ∧
      (s.world.pool plainKey).leased = true ∧ (s.world.pool plainKey).conn = none :=
  ⟨_, rfl, rfl, rfl⟩

/-- The same failure inside a subtransaction. -/
def guarded : List Event :=
  [.startSub, .enter 0 1 false, .call 0 (.acquire plainServer plainUser false none) [.fails]]

theorem no_lease_outlives_guarded :
    letI := plainCache
    ∃ s t, run Session.step (guarded ++ [.abortSub]) (.start plainResidue plainCatalog) = .ok s ∧
      Session.step (.endTop .commit) s = .ok t ∧ ∀ k, (t.world.pool k).leased = false := by
  let _ := plainCache
  refine ⟨_, _, rfl, rfl, ?_⟩
  refine (no_lease_outlives_transaction plainResidue plainCatalog (guarded ++ [.abortSub]) ?_ rfl
    .commit trivial rfl).1
  refine ⟨trivial, fun s hs => ?_⟩
  cases hs
  refine ⟨trivial, fun s hs => ?_⟩
  cases hs
  refine ⟨fun _ => ⟨nofun, fun c hc => ?_⟩, fun s hs => ?_⟩
  · cases hc
    rfl
  · cases hs
    refine ⟨fun k _ hOpen => absurd ?_ hOpen, fun s hs => trivial⟩
    by_cases hk : k = plainKey
    · subst hk
      rfl
    · exact congrArg Conn.conn
        ((World.setConn_of_ne _ _ hk).trans (World.setConn_of_ne _ _ hk))

theorem abort_gives_back_guarded :
    letI := plainCache
    ∃ s t, run Session.step guarded (.start plainResidue plainCatalog) = .ok s ∧
      Session.step .abortSub s = .ok t ∧ ∀ k, (s.world.pool k).leased = true →
        ((t.world.pool k).leased = false ↔ s.owner k = s.world.subid) := by
  let _ := plainCache
  refine ⟨_, _, rfl, rfl, ?_⟩
  have hOther : ∀ k, k ≠ plainKey → ∀ s, run Session.step guarded
      (.start plainResidue plainCatalog) = .ok s → (s.world.pool k).leased = false := by
    rintro k hk s hs
    cases hs
    exact congrArg Conn.leased ((World.setConn_of_ne _ _ hk).trans (World.setConn_of_ne _ _ hk))
  have hNobody : ∀ id s, run Session.step guarded
      (.start plainResidue plainCatalog) = .ok s → s.callers id = none := by
    intro id s hs
    cases hs
    by_cases hid : id = 0
    · subst hid
      rfl
    · exact (Function.update_of_ne hid _ _).trans (Function.update_of_ne hid _ _)
  refine ((abort_gives_back_iff plainResidue plainCatalog guarded rfl rfl).mpr
    ⟨fun k hLeased _ => ?_, fun k hLeased hNobody => ?_, fun id c h hCaller => ?_⟩).1
  · by_cases hk : k = plainKey
    · subst hk
      rfl
    · exact absurd (hLeased.symm.trans (hOther k hk _ rfl)) nofun
  · by_cases hk : k = plainKey
    · subst hk
      cases hNobody
    · exact absurd (hLeased.symm.trans (hOther k hk _ rfl)) nofun
  · cases hCaller.symm.trans (hNobody id _ rfl)

/-- A scan is open around a function that catches an error. The function's own connection was
taken in a subtransaction that was released. -/
def caughtError : List Event :=
  [.enter 0 1 false, .call 0 (.acquire plainServer plainUser false none) (answered 7),
    .call 0 .begin [], .startSub, .startSub, .enter 1 1 false,
    .call 1 (.acquire plainServer plainUser false none) (answered 7), .commitSub]

/-- The scan's socket is closed under it, and the function's lease is kept. -/
theorem caught_error_reaches_scan :
    letI := plainCache
    ∃ s t b, run Session.step caughtError (.start plainResidue plainCatalog) = .ok s ∧
      Session.step .abortSub s = .ok t ∧
      (t.callers 0).bind Caller.hold = some (.reading b) ∧ b.key = plainKey ∧
      (s.world.pool plainKey).conn ≠ none ∧ (t.world.pool plainKey).conn = none ∧
      s.owner ⟨1, 3, 1⟩ = s.world.subid ∧ (t.world.pool ⟨1, 3, 1⟩).leased = true := by
  let _ := plainCache
  exact ⟨_, _, _, rfl, rfl, rfl, rfl, nofun, rfl, rfl, rfl⟩

end ValkeyFdw.Pool
