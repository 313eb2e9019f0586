import ValkeyFdw.Pool.Lease
import ValkeyFdw.Scan.Row

/-!
# Estimates

The planner asks a server how many members a key has, or how many keys a keyset. It can do
without the answer, so whatever goes wrong is swallowed, and the statement goes on in the
same transaction. What was raised left the pool as it was at that moment: with the lease of
the connection that was taken, and with its mark if the question was under way. The flush at
the end of the transaction refuses to run while a connection of its server and user is
marked.
-/

namespace ValkeyFdw

/-- The command that counts the members of a key, if there is one. -/
def TableType.countVerb : TableType → Option String
  | .hash => some "HLEN"
  | .list => some "LLEN"
  | .set => some "SCARD"
  | .zset => some "ZCARD"
  | .string | .vector => none

/-- The question that tells how many rows a table has, if one does: a command and the key it
is about. -/
def TableMap.countQuestion (m : TableMap) : Option (String × Bytes) :=
  match m.singletonKey with
  | some key =>
    if m.isMultirow then m.tabletype.countVerb.map fun verb => (verb, key) else none
  | none =>
    match m.keyset with
    | some s => if m.isMultirow then none else some ("SCARD", s)
    | none => none

namespace Pool

open Raise

/-! ## Asking -/

section Estimate

variable [SysCache] (server : ForeignServer) (user : UserMapping)

/-- What is done under the handler: the reply to one command. -/
def estimateQuestion : Proc (Option Answer) := do
  let k ← getConnectionCluster server user
  let b ← batchBegin k
  let b ← batchAdd b
  let r ← batchNext b
  batchEnd r.1
  releaseConnection k
  pure r.2

/-- Ask for one count, or answer -1; `integer` is the number in a reply that is one. -/
def estimateAsk (integer : Answer → Option Int) (w : World) : Int × World :=
  match estimateQuestion server user w with
  | .ok reply w' => ((reply.bind integer).getD (-1), w')
  | .error _ w' => (-1, w')

/-- The number of rows of a table, or -1. -/
def estimateRows (m : TableMap) (integer : Answer → Option Int) (w : World) : Int × World :=
  match m.countQuestion with
  | some _ =>
    let (n, w) := estimateAsk server user integer w
    (if 0 ≤ n then n else -1, w)
  | none => (if m.singletonKey = none then -1 else 1, w)

end Estimate

/-! ## The flush -/

/-- A connection of the server and user that is in conversation, if there is one. -/
def connPeek (serverid userid : Nat) (w : World) : Option ConnKey :=
  ((List.range maxConnSlots).map fun i => ⟨serverid, userid, i⟩).find? fun k =>
    (w.pool k).conn.isSome && (w.pool k).inConversation

section Flush

variable [SysCache] (server : ForeignServer) (user : UserMapping)

/-- The connection for the writes: on a cluster that of the primary which owns their slot,
if they have one and the map knows it. -/
def flushConnect (slot : Option (Fin nslots)) : Proc ConnKey :=
  if !server.options.cluster then getConnection server user
  else do
    let k ← getConnectionCluster server user
    match slot with
    | none => pure k
    | some slot => do
      let map ← clusterMap k
      match map.owner slot with
      | none => pure k
      | some i => do
        releaseConnection k
        getConnectionNode server user (map.nodes.get i)

def flushAcquire (slot : Option (Fin nslots)) (database : Int) : Proc ConnKey := do
  let w ← get
  raiseIf (connPeek server.serverid user.userid w).isSome
    (.refused "valkey_fdw: connection left in conversation at pre-commit")
  let k ← flushConnect server user slot
  connSelectDb k database
  pure k

end Flush

/-! ## What a failure leaves -/

section Trace

variable [SysCache] {server : ForeignServer} {user : UserMapping} {w w' : World}

/-- Every slot of the server and user is taken. -/
def AllLeased (server : ForeignServer) (user : UserMapping) (w : World) : Prop :=
  ∀ i < maxConnSlots, (w.pool ⟨server.serverid, user.userid, i⟩).leased = true

/-- No entry is leased or marked that was not before. -/
structure Traceless (w w' : World) : Prop where
  leased : ∀ k, (w'.pool k).leased = true → (w.pool k).leased = true
  marked : ∀ k, (w'.pool k).inConversation = true → (w.pool k).inConversation = true

theorem picks_eq_none_iff (node : Option Node) :
    picks server user node w = none ↔ AllLeased server user w := by
  constructor
  · intro hNone i hi
    by_contra hFree
    have hSome : (picks server user node w).isSome = true := by
      rw [picks, Option.isSome_map]
      exact freeSlotFrom_isSome (.inl ⟨i, List.mem_range.mpr hi, Bool.not_eq_true _ ▸ hFree⟩)
    rw [hNone] at hSome
    cases hSome
  · intro hAll
    cases hPicks : picks server user node w with
    | none => rfl
    | some r =>
      have hPicked := picked_of_picks (k := r.1) (e := r.2) hPicks
      have hKey : r.1 = ⟨server.serverid, user.userid, r.1.slot⟩ := by
        rw [← hPicked.serverid, ← hPicked.userid]
      have hLeased := hAll r.1.slot hPicked.slot
      rw [← hKey, hPicked.free] at hLeased
      cases hLeased

omit [SysCache] in
theorem Uses.leased {k : ConnKey} (h : Uses k w w') : (w'.pool k).leased = (w.pool k).leased :=
  congrArg Held.leased h.held

omit [SysCache] in
/-- The question on a connection that was taken keeps its lease if it fails. -/
theorem wp_question {k : ConnKey} (hLeased : (w.pool k).leased = true) :
    wp (do
      let b ← batchBegin k
      let b ← batchAdd b
      let r ← batchNext b
      batchEnd r.1
      releaseConnection k
      pure r.2 : Proc (Option Answer))
      (fun _ _ => True) (fun w' => (w'.pool k).leased = true) w := by
  have hKeep : ∀ {u : World}, Uses k w u → (u.pool k).leased = true :=
    fun h => h.leased.trans hLeased
  refine (wired_uses k).wp_exchange (fun _ => hKeep) fun r w' hRead hKey => ?_
  subst hKey
  rw [wp_bind]
  exact wp_mono ((wired_uses _).keeps_batchEnd w') (fun _ _ _ => trivial)
    fun _ h => hKeep (hRead.trans h)

/-- A question fails without a slot and changes nothing, or keeps the one it took. -/
theorem wp_estimateQuestion :
    wp (estimateQuestion server user) (fun _ _ => True)
      (fun w' => (AllLeased server user w ∧ w' = w) ∨ (¬AllLeased server user w ∧
        ∃ k, (w.pool k).leased = false ∧ (w'.pool k).leased = true)) w := by
  have hKept : ∀ {k : ConnKey} {e : Conn} {u : World}, picks server user none w = some (k, e) →
      (u.pool k).leased = true → (AllLeased server user w ∧ u = w) ∨ (¬AllLeased server user w ∧
        ∃ k, (w.pool k).leased = false ∧ (u.pool k).leased = true) := by
    intro k e u hPicks hLeased
    refine .inr ⟨fun hAll => ?_, k, (picked_of_picks hPicks).free, hLeased⟩
    cases hPicks.symm.trans ((picks_eq_none_iff none).mpr hAll)
  have hSet : ∀ {k : ConnKey} {e : Conn}, picks server user none w = some (k, e) →
      ((w.setConn k e).pool k).leased = true := by
    intro k e hPicks
    rw [World.setConn_self]
    exact (picked_of_picks hPicks).leased
  have hAsk : ∀ {k : ConnKey} {e : Conn} {u : World}, picks server user none w = some (k, e) →
      (u.pool k).leased = true → wp _ (fun _ _ => True) _ u := fun hPicks hLeased =>
    wp_mono (wp_question hLeased) (fun _ _ _ => trivial) fun _ => hKept hPicks
  unfold estimateQuestion getConnectionCluster
  rw [wp_bind]
  refine wp_getConnectionInternal ?_ ?_ ?_ ?_
  · intro hNone
    exact .inl ⟨(picks_eq_none_iff none).mp hNone, rfl⟩
  · intro k e hPicks _
    exact hKept hPicks (hSet hPicks)
  · intro k e hPicks _ _
    refine wp_mono (connOpen_uses k user.options (w.setConn k e)) (fun _ u h => ?_) fun u h => ?_
    · refine hAsk hPicks (h.leased.trans ?_)
      rw [World.open, World.setConn_self]
      exact hSet hPicks
    · refine hKept hPicks ?_
      rcases h with ⟨-, rest, rfl⟩ | h
      · exact hSet hPicks
      · rw [h.leased, World.open, World.setConn_self]
        exact hSet hPicks
  · intro k e hPicks _ _
    exact hAsk hPicks (hSet hPicks)

omit [SysCache] in
/-- Whatever is run later ends the same way. -/
def SameLater (w w' : World) : Prop := ∀ (β : Type) (x : Proc β), x w' = x w

/-- A failed estimate leaves no trace, and everything later goes as it would have gone, exactly
where it failed for want of a slot: every other failure keeps the lease of the slot it took. -/
theorem estimate_traceless_iff (m : TableMap) {q : String × Bytes} (hAsks : m.countQuestion = some q)
    (integer : Answer → Option Int) {e : PoolError} {u : World}
    (hFails : estimateQuestion server user w = .error e u) :
    let w' := (estimateRows server user m integer w).2
    (Traceless w w' ∧ SameLater w w' ↔ AllLeased server user w) ∧
      (Traceless w w' ↔ AllLeased server user w) := by
  have hLeft : (estimateRows server user m integer w).2 = u := by
    simp only [estimateRows, hAsks, estimateAsk, hFails]
  intro w'
  obtain rfl : w' = u := hLeft
  have hEnds := of_error (@wp_estimateQuestion _ server user w) hFails
  have hOnly : Traceless w w' → AllLeased server user w := by
    intro hTraceless
    rcases hEnds with ⟨hAll, -⟩ | ⟨-, k, hFree, hLeased⟩
    · exact hAll
    · rw [hTraceless.leased k hLeased] at hFree
      cases hFree
  have hSame : AllLeased server user w → w' = w := by
    intro hAll
    rcases hEnds with ⟨-, hSame⟩ | ⟨hSome, -⟩
    · exact hSame
    · exact absurd hAll hSome
  refine ⟨⟨fun h => hOnly h.1, fun hAll => ?_⟩, hOnly, fun hAll => ?_⟩
  · rw [hSame hAll]
    exact ⟨⟨fun _ => id, fun _ => id⟩, fun _ _ => rfl⟩
  · rw [hSame hAll]
    exact ⟨fun _ => id, fun _ => id⟩

end Trace

/-- A table whose only key is a list. -/
def countedMap : TableMap :=
  ⟨1, [⟨true, .member, none, .other, false⟩], .list, none, none, some (ascii "queue"), none, false,
    false⟩

/-- Every slot is taken: the estimate fails and leaves nothing. -/
theorem estimate_traceless_full :
    letI := plainCache
    let w : World := ⟨fun k => { plainResidue k with leased := true }, topSubid, 0, fun _ => none,
      [], []⟩
    Traceless w (estimateRows plainServer plainUser countedMap (fun _ => none) w).2 := by
  let _ := plainCache
  intro w
  have hFails : estimateQuestion plainServer plainUser w = .error .noSlots w := rfl
  exact (estimate_traceless_iff countedMap (q := ("LLEN", ascii "queue")) rfl (fun _ => none)
    hFails).2.mpr fun _ _ => rfl

/-- The server goes away while it is asked, over a connection that was open and idle. The
connection stays leased and marked, and the flush of the transaction is refused; without the
estimate it would have had the connection. -/
theorem estimate_stops_flush :
    letI := plainCache
    let open' : Conn := { plainResidue plainKey with
      conn := some ⟨⟨0, plainOptions.endpoint, plainUser.options⟩, 0⟩, database := 0 }
    let w : World := ⟨Function.update plainResidue plainKey open', topSubid, 1, fun _ => none, [],
      [.answers .other, .fails]⟩
    let w' := (estimateRows plainServer plainUser countedMap (fun _ => none) w).2
    (w.pool plainKey).leased = false ∧ (w'.pool plainKey).leased = true ∧
      (w'.pool plainKey).inConversation = true ∧
      (∃ u, flushAcquire plainServer plainUser none 0 w = .ok plainKey u) ∧
      ∃ u, flushAcquire plainServer plainUser none 0 w' =
        .error (.refused "valkey_fdw: connection left in conversation at pre-commit") u := by
  let _ := plainCache
  exact ⟨rfl, rfl, rfl, ⟨_, rfl⟩, ⟨_, rfl⟩⟩

end Pool

end ValkeyFdw
