import ValkeyFdw.Pool.Facts

/-!
# Entries follow their operations

The life of an entry was told by operations on it alone. Here they are found again in the
programs of the pool: however a program ends, the entry of its connection is as an operation
leaves it, and the caller still holds the connection if and only if the operation says so.
`session_follows` puts this together for the runs of a session.
-/

namespace ValkeyFdw.Pool

open Raise Trace

/-! ## Replies that are owed -/

def Conn.unread (e : Conn) : Nat := e.conn.elim 0 Socket.unread

@[simp] theorem Conn.owing_unread (e : Conn) : e.owing e.unread = e := by
  obtain ⟨conn⟩ := e
  cases conn <;> rfl

@[simp] theorem Conn.owing_owing (e : Conn) (n m : Nat) : (e.owing n).owing m = e.owing m := by
  simp [owing, Function.comp_def]

@[simp] theorem Conn.busy_busy (e : Conn) (n m : Nat) (marked marked' : Bool) :
    (e.busy n marked).busy m marked' = e.busy m marked' := by
  simp [busy, owing, Function.comp_def]

theorem Conn.owing_eq_busy (e : Conn) (n : Nat) : e.owing n = e.busy n e.inConversation := rfl

/-- Nothing of the entry changed but the number of replies that are owed. -/
def Owes (k : ConnKey) (w w' : World) : Prop := ∃ n, w'.pool k = (w.pool k).owing n

/-- The mark may have changed as well. -/
def Converses (k : ConnKey) (w w' : World) : Prop :=
  ∃ n marked, w'.pool k = (w.pool k).busy n marked

section Owes

variable {k : ConnKey} {w w' : World}

theorem Owes.of_pool (h : w'.pool k = w.pool k) : Owes k w w' :=
  ⟨(w.pool k).unread, by rw [h, Conn.owing_unread]⟩

instance : Std.Refl (Owes k) := ⟨fun _ => .of_pool rfl⟩

instance : IsTrans World (Owes k) :=
  ⟨fun _ _ _ ⟨_, h⟩ ⟨m, h'⟩ => ⟨m, by rw [h', h, Conn.owing_owing]⟩⟩

theorem Owes.converses (h : Owes k w w') : Converses k w w' := by
  obtain ⟨n, h⟩ := h
  exact ⟨n, (w.pool k).inConversation, h⟩

instance : Std.Refl (Converses k) := ⟨fun w => (refl_of (Owes k) w).converses⟩

instance : IsTrans World (Converses k) :=
  ⟨fun _ _ _ ⟨_, _, h⟩ ⟨m, marked, h'⟩ => ⟨m, marked, by rw [h', h, Conn.busy_busy]⟩⟩

theorem owes_await : Keeps (Owes k) await :=
  fun _ => wp_await (fun _ _ _ => .of_pool rfl) fun _ _ => .of_pool rfl

theorem wired_owes (k : ConnKey) : Wired k (Owes k) where
  await := owes_await
  append ctx := by
    refine owes_await.bind fun _ w => wp_bind.mpr (wp_socketAt ?_ (refl_of (Owes k) w))
    intro sock hSock _
    exact ⟨sock.unread + 1, by simp [World.hand, Conn.owing, hSock, World.setConn]⟩
  reply ctx := by
    refine owes_await.bind fun _ w => wp_bind.mpr (wp_socketAt ?_ (refl_of (Owes k) w))
    intro sock hSock _
    exact ⟨sock.unread - 1, by simp [Conn.owing, hSock, World.setConn]⟩

theorem wired_converses (k : ConnKey) : Wired.Marked k (Converses k) where
  await := (wired_owes k).await.mono fun _ _ => Owes.converses
  append ctx := ((wired_owes k).append ctx).mono fun _ _ => Owes.converses
  reply ctx := ((wired_owes k).reply ctx).mono fun _ _ => Owes.converses
  mark marked w := ⟨(w.pool k).unread, marked, by simp [Conn.busy, World.setConn]⟩

theorem connCommand_ends (k : ConnKey) (what : String) (w : World) :
    wp (connCommand k what) (fun _ w' => Owes k w w')
      (fun w' => ∃ n, w'.pool k = (w.pool k).busy n true) w := by
  unfold connCommand
  simp only [wp_bind, wp_readConn, wp_modifyConn, wp_raiseIf, wp_pure]
  refine wp_mono ((wired_owes k).keeps_roundTrip _) (fun a w' hOwes => ?_) fun w' hOwes => ?_
  · obtain ⟨n, hEntry⟩ := hOwes
    rw [World.setConn_self] at hEntry
    refine ⟨fun _ => ⟨n, hEntry⟩, fun _ => ⟨n, ?_⟩⟩
    rw [World.setConn_self, hEntry]
    rfl
  · obtain ⟨n, hEntry⟩ := hOwes
    rw [World.setConn_self] at hEntry
    exact ⟨n, hEntry⟩

end Owes

/-! ## Opening -/

section Open

/-- The entry is this one, with some replies owed. -/
def Opens (k : ConnKey) (e : Conn) (w : World) : Prop := ∃ n, w.pool k = e.owing n

variable {k : ConnKey} {e : Conn} {w : World}

variable (h : Opens k e w)

include h

theorem Opens.owes {w' : World} (hOwes : Owes k w w') : Opens k e w' := by
  obtain ⟨n, hEntry⟩ := h
  obtain ⟨m, hEntry'⟩ := hOwes
  exact ⟨m, by rw [hEntry', hEntry, Conn.owing_owing]⟩

theorem Opens.roundTrip : wp (roundTrip k) (fun _ => Opens k e) (Opens k e) w :=
  wp_mono ((wired_owes k).keeps_roundTrip w) (fun _ _ => h.owes) fun _ => h.owes

theorem Opens.connCommand (hMarked : e.inConversation = true) (what : String) :
    wp (connCommand k what) (fun _ => Opens k e) (Opens k e) w := by
  refine wp_mono (connCommand_ends k what w) (fun _ _ => h.owes) fun w' hFails => ?_
  obtain ⟨n, hEntry⟩ := h
  obtain ⟨m, hEntry'⟩ := hFails
  refine ⟨m, ?_⟩
  rw [hEntry', hEntry, Conn.owing_eq_busy, Conn.busy_busy, Conn.owing_eq_busy, hMarked]

theorem Opens.connForceHandshake (hMarked : e.inConversation = true) :
    wp (connForceHandshake k) (fun _ => Opens k e) (Opens k e) w := by
  unfold Pool.connForceHandshake
  rw [wp_bind, wp_readConn]
  refine wp_ite.mpr ⟨fun _ => ?_, fun _ => h⟩
  rw [wp_bind]
  refine wp_mono (owes_await w) (fun _ w' hOwes => ?_) fun _ => h.owes
  rw [wp_bind]
  exact wp_mono ((h.owes hOwes).connCommand hMarked _) (fun _ _ => id) fun _ => id

theorem Opens.connAuthenticate (hMarked : e.inConversation = true) (user : UserOptions) :
    wp (connAuthenticate k user) (fun _ => Opens k e) (Opens k e) w := by
  unfold Pool.connAuthenticate
  split
  · exact h
  · rw [wp_bind]
    exact wp_mono (h.connCommand hMarked _) (fun _ _ => id) fun _ => id

theorem Opens.connNegotiateResp3 :
    wp (connNegotiateResp3 k) (fun _ w' => ∃ hello, Opens k (e.learnProtocol hello) w')
      (Opens k e) w := by
  unfold Pool.connNegotiateResp3
  rw [wp_bind]
  refine wp_mono h.roundTrip (fun a w' h' => ?_) fun _ => id
  simp only [wp_bind, wp_raiseIf, wp_modifyConn]
  refine ⟨fun _ => h', fun _ => ⟨a, ?_⟩⟩
  obtain ⟨n, hEntry⟩ := h'
  exact ⟨n, by rw [World.setConn_self, hEntry]; rfl⟩

theorem Opens.connProbeScript :
    wp (connProbeScript k) (fun _ w' => ∃ probe, Opens k (e.learnProgram probe) w')
      (Opens k e) w := by
  unfold Pool.connProbeScript
  rw [wp_bind]
  refine wp_mono h.roundTrip (fun a w' h' => ?_) fun _ => id
  rw [wp_modifyConn]
  obtain ⟨n, hEntry⟩ := h'
  exact ⟨a, n, by rw [World.setConn_self, hEntry]; rfl⟩

omit h

/-- Opening ends in one of the ways an opening can end, and gives the connection to the
caller if and only if it is complete. -/
theorem connOpen_follows {t : Tracked} (hEntry : t.entry = w.pool k) (user : UserOptions) :
    wp (connOpen k user)
      (fun _ w' => ∃ o, (t.connect user o).entry = w'.pool k ∧ (t.connect user o).held = true)
      (fun w' => ∃ o, (t.connect user o).entry = w'.pool k ∧ (t.connect user o).held = false) w := by
  have hBroken : ∀ w', Opens k (t.entry.opened w.opens user) w' →
      ∃ o, (t.connect user o).entry = w'.pool k ∧ (t.connect user o).held = false :=
    fun w' ⟨n, hOpens⟩ => ⟨.broken w.opens n, hOpens.symm, rfl⟩
  unfold connOpen
  rw [wp_bind]
  refine wp_await (fun _ rest _ => ?_) fun rest _ => ⟨.unreached, hEntry, rfl⟩
  rw [wp_bind, wp_modify]
  have hOpened : Opens k (t.entry.opened w.opens user) ({ w with waits := rest }.open k user) := by
    refine ⟨0, ?_⟩
    rw [hEntry]
    exact ({ w with waits := rest }.setConn_self k _).trans rfl
  rw [wp_bind]
  refine wp_mono (hOpened.connForceHandshake rfl) (fun _ w₁ h₁ => ?_) hBroken
  rw [wp_bind]
  refine wp_mono (h₁.connAuthenticate rfl user) (fun _ w₂ h₂ => ?_) hBroken
  rw [wp_bind]
  refine wp_mono h₂.connNegotiateResp3 (fun _ w₃ ⟨hello, h₃⟩ => ?_) hBroken
  rw [wp_bind]
  refine wp_mono h₃.connProbeScript (fun _ w₄ ⟨probe, n, h₄⟩ => ?_) fun w' ⟨n, h'⟩ => ?_
  · refine ⟨.complete w.opens n hello probe, ?_, rfl⟩
    rw [World.setConn_self, h₄]
    rfl
  · exact ⟨.halfway w.opens n hello, h'.symm, rfl⟩

end Open

/-! ## Taking -/

section Acquire

variable [SysCache] {server : ForeignServer} {user : UserMapping} {clusterAware : Bool}
  {node : Option Node} {w : World} {k : ConnKey} {e : Conn} {t : Tracked}

theorem picks_entry (h : picks server user node w = some (k, e)) (hEntry : t.entry = w.pool k) :
    ((t.claim w.subid node).record server user).entry = e := by
  obtain ⟨⟨i, matched⟩, hSlot, hEq⟩ := Option.map_eq_some_iff.mp h
  obtain ⟨rfl, rfl⟩ := Prod.mk.inj hEq
  rcases freeSlotFrom_spec hSlot with ⟨-, -, rfl⟩ | ⟨-, hNone | hNone⟩
  · simp only [Tracked.claim, Tracked.record, hEntry]
    split <;> rfl
  · cases hNone
  · cases hNone

/-- A pool whose entries are tracked. -/
def Tracks (pool : ConnKey → Tracked) (w : World) : Prop := ∀ k, (pool k).entry = w.pool k

/-- An entry that nobody had was chosen, and the others are as they were. -/
structure Acquires (server : ForeignServer) (user : UserMapping) (clusterAware : Bool)
    (node : Option Node) (pool : ConnKey → Tracked) (w w' : World) (k : ConnKey) (held : Bool) :
    Prop where
  free : (w.pool k).leased = false
  others : ∀ k', k' ≠ k → w'.pool k' = w.pool k'
  follows : ∃ opening,
    ((pool k).acquire server user clusterAware node w.subid opening).entry = w'.pool k ∧
      ((pool k).acquire server user clusterAware node w.subid opening).held = held

/-- A request finds no entry, or its entry follows. -/
theorem acquire_follows {pool : ConnKey → Tracked} (hPool : Tracks pool w) (server : ForeignServer)
    (user : UserMapping) (clusterAware : Bool) (node : Option Node) :
    wp (getConnectionInternal server user clusterAware node)
      (fun k w' => Acquires server user clusterAware node pool w w' k true)
      (fun w' => w' = w ∨ ∃ k, Acquires server user clusterAware node pool w w' k false) w := by
  refine wp_getConnectionInternal (fun _ => .inl rfl) ?_ ?_ ?_
  · intro k e hPicks hRefuses
    refine .inr ⟨k, (picked_of_picks hPicks).free, fun _ => w.setConn_of_ne e, .unreached, ?_⟩
    rw [w.setConn_self, Tracked.acquire, if_pos hRefuses]
    exact ⟨picks_entry hPicks (hPool k), rfl⟩
  · intro k e hPicks hRefuses hClosed
    have hFree := (picked_of_picks hPicks).free
    have hEntry := picks_entry hPicks (hPool k)
    have hAcquire : ∀ o, (pool k).acquire server user clusterAware node w.subid o =
        (((pool k).claim w.subid node).record server user).connect user.options o := by
      intro o
      rw [Tracked.acquire, if_neg (Bool.eq_false_iff.mp hRefuses), if_pos (hEntry ▸ hClosed)]
    have hOthers : ∀ {w' : World}, Uses k ((w.setConn k e).open k user.options) w' →
        ∀ k', k' ≠ k → w'.pool k' = w.pool k' := by
      intro w' hUses k' hk
      rw [hUses.others k' hk]
      exact ((w.setConn k e).setConn_of_ne _ hk).trans (w.setConn_of_ne e hk)
    refine wp_mono (wp_and (connOpen_uses k user.options _)
      (connOpen_follows (hEntry.trans (w.setConn_self k e).symm) user.options)) ?_ ?_
    · rintro _ w' ⟨hUses, o, hFollows⟩
      exact ⟨hFree, hOthers hUses, o, by rwa [hAcquire]⟩
    · rintro w' ⟨hFails | hUses, o, hFollows⟩
      · obtain ⟨-, rest, rfl⟩ := hFails
        exact .inr ⟨k, hFree, fun _ => w.setConn_of_ne e, o, by rwa [hAcquire]⟩
      · exact .inr ⟨k, hFree, hOthers hUses, o, by rwa [hAcquire]⟩
  · intro k e hPicks hRefuses hOpen
    have hEntry := picks_entry hPicks (hPool k)
    refine ⟨(picked_of_picks hPicks).free, fun _ => w.setConn_of_ne e, .unreached, ?_⟩
    rw [w.setConn_self, Tracked.acquire, if_neg (Bool.eq_false_iff.mp hRefuses),
      if_neg (hEntry ▸ hOpen)]
    exact ⟨hEntry, rfl⟩

end Acquire

/-! ## Using -/

section Use

variable {k : ConnKey} {w : World} {t : Tracked}

theorem select_follows (hEntry : t.entry = w.pool k) (hHeld : t.held = true) (id : Nat)
    (database : Int) :
    wp (connSelectDb k database)
      (fun _ w' => ∃ answered n, (t.select id database answered n).entry = w'.pool k ∧
        (t.select id database answered n).held = true)
      (fun w' => ∃ answered n, (t.select id database answered n).entry = w'.pool k ∧
        (t.select id database answered n).held = false) w := by
  unfold connSelectDb
  rw [wp_bind, wp_readConn, ← hEntry]
  refine wp_ite.mpr ⟨fun hSame => ⟨true, 0, ?_⟩, fun hOther => wp_ite.mpr ⟨fun hCluster => ?_, ?_⟩⟩
  · rw [Tracked.select, if_pos hSame]
    exact ⟨hEntry, hHeld⟩
  · rw [wp_bind, wp_raiseIf]
    refine ⟨fun hDatabase => ⟨true, 0, ?_⟩, fun hZero => ⟨true, 0, ?_⟩⟩
    · rw [Tracked.select, if_neg hOther, if_pos hCluster, if_pos (of_decide_eq_true hDatabase)]
      exact ⟨hEntry, rfl⟩
    · rw [Tracked.select, if_neg hOther, if_pos hCluster, if_neg (of_decide_eq_false hZero),
        World.setConn_self, ← hEntry]
      exact ⟨rfl, hHeld⟩
  · intro hCluster
    have hSelect : ∀ answered n, t.select id database answered n =
        if answered then
          { t with
            entry := { t.entry.owing n with database := database }
            origin := learnedOn id [.database] t.origin }
        else
          { entry := { t.entry.busy n true with database := -1 }
            origin := blanked .database t.origin
            held := false } := by
      intro answered n
      rw [Tracked.select, if_neg hOther, if_neg hCluster]
    simp only [wp_bind, wp_modifyConn]
    refine wp_mono (connCommand_ends k _ _) ?_ ?_
    · rintro _ w' ⟨n, hEnds⟩
      refine ⟨true, n, ?_⟩
      rw [hSelect, World.setConn_self, hEnds, World.setConn_self, ← hEntry]
      exact ⟨rfl, hHeld⟩
    · rintro w' ⟨n, hEnds⟩
      refine ⟨false, n, ?_⟩
      rw [hSelect, hEnds, World.setConn_self, ← hEntry]
      exact ⟨rfl, rfl⟩

theorem requireTtl_follows (hEntry : t.entry = w.pool k) (hHeld : t.held = true) (id : Nat) :
    wp (ttlRequire k)
      (fun _ w' => ∃ answer n, (t.requireTtl id answer n).entry = w'.pool k ∧
        (t.requireTtl id answer n).held = true)
      (fun w' => ∃ answer n, (t.requireTtl id answer n).entry = w'.pool k ∧
        (t.requireTtl id answer n).held = false) w := by
  -- What was asked, or read, decides.
  have hDecides : ∀ (w' : World) (answer : Option Answer) (n : Nat),
      (t.askTtl id answer n).entry = w'.pool k → (t.askTtl id answer n).held = true →
      wp (do
        let e ← readConn k
        raiseIf (e.fieldTtl = .absent) .noFieldTtl : Proc Unit)
        (fun _ w' => ∃ answer n, (t.requireTtl id answer n).entry = w'.pool k ∧
          (t.requireTtl id answer n).held = true)
        (fun w' => ∃ answer n, (t.requireTtl id answer n).entry = w'.pool k ∧
          (t.requireTtl id answer n).held = false) w' := by
    intro w' answer n hAsked hStill
    rw [wp_bind, wp_readConn, wp_raiseIf, ← hAsked]
    refine ⟨fun hAbsent => ⟨answer, n, ?_⟩, fun hPresent => ⟨answer, n, ?_⟩⟩
    · rw [Tracked.requireTtl, if_pos (of_decide_eq_true hAbsent)]
      exact ⟨rfl, rfl⟩
    · rw [Tracked.requireTtl, if_neg (of_decide_eq_false hPresent)]
      exact ⟨rfl, hStill⟩
  unfold ttlRequire ttlAsk
  rw [wp_bind, wp_bind, wp_readConn, ← hEntry]
  refine wp_ite.mpr ⟨fun hUnknown => ?_, fun hKnown => ?_⟩
  · unfold ttlProbe
    rw [wp_bind]
    refine wp_mono ((wired_owes k).keeps_roundTrip w) (fun a w' ⟨n, hOwes⟩ => ?_)
      fun w' ⟨n, hOwes⟩ => ⟨none, n, ?_⟩
    · rw [wp_modifyConn]
      refine hDecides _ (some a) n ?_ ?_
      · rw [Tracked.askTtl, if_pos hUnknown, World.setConn_self, hOwes, ← hEntry]
        rfl
      · rw [Tracked.askTtl, if_pos hUnknown]
        exact hHeld
    · have hUnanswered : t.askTtl id none n =
          { t with entry := t.entry.owing n, held := false } := by
        rw [Tracked.askTtl, if_pos hUnknown]
      have hStill : (t.entry.owing n).fieldTtl ≠ .absent := by
        rw [show (t.entry.owing n).fieldTtl = t.entry.fieldTtl from rfl, hUnknown]
        decide
      rw [Tracked.requireTtl, hUnanswered, if_neg hStill, hOwes, hEntry]
      exact ⟨rfl, rfl⟩
  · have hSilent : t.askTtl id none 0 = t := by rw [Tracked.askTtl, if_neg hKnown]
    exact hDecides w none 0 (by rw [hSilent, hEntry]) (by rw [hSilent, hHeld])

/-- Calls that only send commands and read replies. -/
def Call.isTraffic : Call → Bool
  | .begin | .add | .next | .finish | .askMap => true
  | _ => false

/-- The use that a call on a connection is. -/
def Call.IsUse : Call → Use → Prop
  | .select database, .select database' _ _ => database' = database
  | .requireTtl, .requireTtl .. => True
  | .release, .release => True
  | call, .talk .. | call, .raise .. => call.isTraffic = true
  | _, _ => False

/-- The entry is as a use leaves it that the call is, and so is whether the caller has the
connection. -/
def Follows (t : Tracked) (id : Nat) (call : Call) (k : ConnKey) (held : Bool) (w : World) : Prop :=
  ∃ u, call.IsUse u ∧ (t.use id u).entry = w.pool k ∧ (t.use id u).held = held

theorem Converses.follows {call : Call} {w' : World} (h : Converses k w w')
    (hEntry : t.entry = w.pool k) (hHeld : t.held = true) (hTraffic : call.isTraffic = true)
    (id : Nat) : Follows t id call k true w' := by
  obtain ⟨n, marked, h⟩ := h
  rw [← hEntry] at h
  cases call with
  | begin | add | next | finish | askMap => exact ⟨.talk n marked, rfl, h.symm, hHeld⟩
  | _ => cases hTraffic

theorem Converses.fails {call : Call} {w' : World} (h : Converses k w w')
    (hEntry : t.entry = w.pool k) (hTraffic : call.isTraffic = true) (id : Nat) :
    Follows t id call k false w' := by
  obtain ⟨n, marked, h⟩ := h
  rw [← hEntry] at h
  cases call with
  | begin | add | next | finish | askMap => exact ⟨.raise n marked, rfl, h.symm, rfl⟩
  | _ => cases hTraffic

/-- A program that only sends and reads leaves its caller with the connection, unless it
raises. -/
theorem traffic_follows {α : Type} {call : Call} {prog : Proc α} {gain : α → Gain}
    (hProg : wp prog (fun a w' => Converses k w w' ∧ (gain a).hold.isSome = true) (Converses k w) w)
    (hEntry : t.entry = w.pool k) (hHeld : t.held = true) (hTraffic : call.isTraffic = true)
    (id : Nat) :
    wp (gain <$> prog) (fun g w' => Follows t id call k g.hold.isSome w')
      (fun w' => Follows t id call k false w') w := by
  rw [wp_map]
  refine wp_mono hProg (fun a w' ⟨hTalks, hGain⟩ => ?_) fun w' hTalks => ?_
  · rw [hGain]
    exact hTalks.follows hEntry hHeld hTraffic id
  · exact hTalks.fails hEntry hTraffic id

theorem converses_clusterMap (k : ConnKey) : Keeps (Converses k) (clusterMap k) := by
  refine Keeps.get.bind fun w => ?_
  split
  · exact .pure _
  · refine (wired_converses k).keeps_clusterLoad.bind fun map => .bind ?_ fun _ => .pure map
    exact Keeps.modify fun w => (Owes.of_pool rfl).converses

/-- Every call on a connection is a use of its entry. -/
theorem Call.on_follows {h : Hold} {call : Call} {prog : Proc Gain} (hProg : call.on h = some prog)
    (hEntry : t.entry = w.pool h.key) (hHeld : t.held = true) (ctx : Nat) :
    wp prog (fun g w' => Follows t ctx call h.key g.hold.isSome w')
      (fun w' => Follows t ctx call h.key false w') w := by
  have hKept : ∀ {α : Type} {x : Proc α} {k : ConnKey}, Keeps (Converses k) x →
      wp x (fun _ w' => Converses k w w' ∧ true = true) (Converses k w) w :=
    fun hx => wp_mono (hx w) (fun _ _ hTalks => ⟨hTalks, rfl⟩) fun _ => id
  have hOnKey : ∀ {α : Type} {x : Proc α} {k : ConnKey} {P : α → Prop},
      wp x (fun a w' => Converses k w w' ∧ P a) (Converses k w) w →
      wp x (fun _ w' => Converses k w w' ∧ true = true) (Converses k w) w :=
    fun hx => wp_mono hx (fun _ _ hTalks => ⟨hTalks.1, rfl⟩) fun _ => id
  unfold Call.on at hProg
  split at hProg
  · cases hProg
    rw [wp_map]
    refine wp_mono (select_follows hEntry hHeld ctx _) (fun _ w' hEnds => ?_) fun w' hEnds => ?_
    · obtain ⟨answered, n, hEnds⟩ := hEnds
      exact ⟨.select _ answered n, rfl, hEnds⟩
    · obtain ⟨answered, n, hEnds⟩ := hEnds
      exact ⟨.select _ answered n, rfl, hEnds⟩
  · cases hProg
    rw [wp_map]
    refine wp_mono (requireTtl_follows hEntry hHeld ctx) (fun _ w' hEnds => ?_) fun w' hEnds => ?_
    · obtain ⟨answer, n, hEnds⟩ := hEnds
      exact ⟨.requireTtl answer n, trivial, hEnds⟩
    · obtain ⟨answer, n, hEnds⟩ := hEnds
      exact ⟨.requireTtl answer n, trivial, hEnds⟩
  · cases hProg
    exact traffic_follows (hOnKey ((wired_converses _).keeps_batchBegin w)) hEntry hHeld rfl ctx
  · cases hProg
    exact traffic_follows (hKept (converses_clusterMap _)) hEntry hHeld rfl ctx
  · cases hProg
    refine ⟨.release, trivial, ?_, rfl⟩
    exact (congrArg connRelease hEntry).trans (w.setConn_self _ _).symm
  · cases hProg
    exact traffic_follows (hOnKey ((wired_converses _).keeps_batchAdd w)) hEntry hHeld rfl ctx
  · cases hProg
    exact traffic_follows (hOnKey ((wired_converses _).keeps_batchNext w)) hEntry hHeld rfl ctx
  · cases hProg
    exact traffic_follows (hKept (wired_converses _).keeps_batchEnd) hEntry hHeld rfl ctx
  · split at hProg
    · cases hProg
      exact traffic_follows (hKept (converses_clusterMap _)) hEntry hHeld rfl ctx
    · cases hProg
  · cases hProg
    exact traffic_follows (hKept (wired_converses _).keeps_batchEnd) hEntry hHeld rfl ctx
  · cases hProg

end Use

/-! ## Sessions -/

section Sessions

variable [SysCache] {s s' : Session} {event : Event} {pool : ConnKey → Tracked}

/-- Who holds a connection was given it, and its socket is open. -/
def Session.Holds (s : Session) (pool : ConnKey → Tracked) : Prop :=
  ∀ id c h, s.callers id = some c → c.hold = some h →
    (pool h.key).held = true ∧ (pool h.key).entry.conn ≠ none

omit [SysCache] in
theorem tracks_update {w w' : World} {k : ConnKey} {t : Tracked} (hPool : Tracks pool w)
    (hOthers : ∀ k', k' ≠ k → w'.pool k' = w.pool k') (hEntry : t.entry = w'.pool k) :
    Tracks (Function.update pool k t) w' := by
  intro k'
  by_cases hk : k' = k
  · subst hk
    rw [Function.update_self]
    exact hEntry
  · rw [Function.update_of_ne hk, hOthers k' hk]
    exact hPool k'

section Called

variable {id : Nat} {call : Call} {waits : List Wait} {c : Caller} {w : World} {g : Option Gain}

theorem Session.Called.follows (hCalled : Session.Called s id call waits c w g) {h : Hold}
    (hHold : c.hold = some h) (hPool : Tracks pool s.world) (hHeld : (pool h.key).held = true)
    (ctx : Nat) : Follows (pool h.key) ctx call h.key (g.bind Gain.hold).isSome w := by
  have hEnds := hCalled.ends_on hHold fun prog hProg =>
    Call.on_follows (w := { s.world with waits }) hProg (hPool h.key) hHeld ctx
  cases g with
  | none => exact hEnds
  | some g => exact hEnds

theorem Session.Called.acquires {server : ForeignServer} {user : UserMapping} {clusterAware : Bool}
    {node : Option Node}
    (hCalled : Session.Called s id (.acquire server user clusterAware node) waits c w g)
    (hPool : Tracks pool s.world) :
    (w.pool = s.world.pool ∧ g = none) ∨
      ∃ k held, Acquires server user clusterAware node pool { s.world with waits } w k held ∧
        ∀ g' ∈ g, g' = .of (.taken k) ∧ held = true := by
  have hProg := acquire_follows (w := { s.world with waits }) hPool server user clusterAware node
  have hEnds := hCalled.ends_afresh hCalled.taking.1
    (Q := fun g' w' => ∃ k, g' = .of (.taken k) ∧
      Acquires server user clusterAware node pool { s.world with waits } w' k true)
    (Raise.wp_map.mpr (wp_mono hProg (fun k _ h => ⟨k, rfl, h⟩) fun _ h => h))
  cases g with
  | none =>
    rcases hEnds with rfl | ⟨k, hAcquires⟩
    · exact .inl ⟨rfl, rfl⟩
    · exact .inr ⟨k, false, hAcquires, fun g' hg => by cases hg⟩
  | some g =>
    obtain ⟨k, hGain, hAcquires⟩ := hEnds
    refine .inr ⟨k, true, hAcquires, fun g' hg => ?_⟩
    cases hg
    exact ⟨hGain, rfl⟩

omit [SysCache] in
theorem Session.Holds.settle (hHolds : s.Holds pool) {k : ConnKey} {t : Tracked}
    (hAlone : ∀ id' c' h', id' ≠ id → s.callers id' = some c' → c'.hold = some h' → h'.key ≠ k)
    (hNew : ∀ g' h', g = some g' → g'.hold = some h' →
      h'.key = k ∧ t.held = true ∧ t.entry.conn ≠ none) :
    (s.settle id c w g).Holds (Function.update pool k t) := by
  intro id' c' h' hCaller hHold
  by_cases hid : id' = id
  · subst hid
    rw [s.settle_callers_self] at hCaller
    obtain ⟨g', rfl, rfl⟩ := Option.map_eq_some_iff.mp hCaller
    obtain ⟨rfl, hOwn⟩ := hNew g' h' rfl hHold
    rw [Function.update_self]
    exact hOwn
  · rw [s.settle_callers_of_ne c w g hid] at hCaller
    rw [Function.update_of_ne (hAlone id' c' h' hid hCaller hHold)]
    exact hHolds id' c' h' hCaller hHold

end Called

omit [SysCache] in
theorem Tracks.inval (hPool : Tracks pool s.world) (cacheid : CacheId) (hashvalue : Nat) :
    Tracks (fun k => { pool k with entry := connInvalCallback cacheid hashvalue (pool k).entry })
      (s.inval cacheid hashvalue).world :=
  fun k => congrArg (connInvalCallback cacheid hashvalue) (hPool k)

omit [SysCache] in
theorem Session.Holds.inval (hHolds : s.Holds pool) (cacheid : CacheId) (hashvalue : Nat) :
    (s.inval cacheid hashvalue).Holds
      fun k => { pool k with entry := connInvalCallback cacheid hashvalue (pool k).entry } := by
  intro id c h hCaller hHold
  obtain ⟨hHeld, hOpen⟩ := hHolds id c h hCaller hHold
  exact ⟨hHeld, by simpa using hOpen⟩

omit [SysCache] in
theorem Session.Holds.of_callers (hHolds : s.Holds pool)
    (hCallers : ∀ id c h, s'.callers id = some c → c.hold = some h →
      ∃ c', s.callers id = some c' ∧ c'.hold = some h) : s'.Holds pool := by
  intro id c h hCaller hHold
  obtain ⟨c', hCaller', hHold'⟩ := hCallers id c h hCaller hHold
  exact hHolds id c' h hCaller' hHold'

omit [SysCache] in
theorem Session.Holds.abortSub (hHolds : s.Holds pool) (hPool : Tracks pool s.world)
    (hSafe : s.AbortSafe) (parent : Nat) (subs : List Nat) :
    (s.abortSub parent subs).Holds fun k => (pool k).subxact s.world.subid := by
  intro id c h hCaller hHold
  obtain ⟨hBefore, hOuter⟩ := Session.abortSub_callers hCaller
  obtain ⟨hHeld, hOpen⟩ := hHolds id c h hBefore hHold
  have hApart := hSafe id c h hBefore hOuter hHold
  have hSame := (connSubxact_eq_self_iff _ _).mpr hApart
  rw [← hPool h.key] at hApart hSame
  have hKept : Tracked.givesBack s.world.subid (pool h.key).entry = false := by
    rcases hApart.2 with hFree | hOther
    · simp [Tracked.givesBack, hFree]
    · simp [Tracked.givesBack, hOther]
  refine ⟨by simp [Tracked.subxact, hHeld, hKept], ?_⟩
  exact fun hNone => hOpen ((congrArg Conn.conn hSame).symm.trans hNone)

/-- An event that asks about the expiry of fields. -/
def Event.AsksTtl (event : Event) : Prop := ∃ id waits, event = .call id .requireTtl waits

/-- What an entry went through during an event: nothing, or one operation. -/
def Event.Lives (event : Event) (t t' : Tracked) : Prop :=
  t' = t ∨ ∃ op, Tracked.step op t = .ok t' ∧ (op.reads = some .fieldTtl → event.AsksTtl)

theorem Event.lives_update {k : ConnKey} {t : Tracked} (op : EntryOp)
    (hOp : Tracked.step op (pool k) = .ok t) (hReads : op.reads = some .fieldTtl → event.AsksTtl)
    (k' : ConnKey) : event.Lives (pool k') (Function.update pool k t k') := by
  by_cases hk : k' = k
  · subst hk
    rw [Function.update_self]
    exact .inr ⟨op, hOp, hReads⟩
  · exact .inl (Function.update_of_ne hk ..)

omit [SysCache] in
theorem Call.IsUse.asks {call : Call} {u : Use} (h : call.IsUse u)
    (hReads : (EntryOp.use u).reads = some .fieldTtl) : call = .requireTtl := by
  cases u with
  | requireTtl answer unread =>
    cases call with
    | requireTtl => rfl
    | _ => cases h
  | select database answered unread => cases hReads
  | consult fact => cases call <;> cases h
  | _ => cases hReads

theorem Tracked.acquire_open {t : Tracked} {server : ForeignServer} {user : UserMapping}
    {clusterAware : Bool} {node : Option Node} {subid : Nat} {opening : Opening}
    (h : (t.acquire server user clusterAware node subid opening).held = true) :
    (t.acquire server user clusterAware node subid opening).entry.conn ≠ none := by
  unfold Tracked.acquire at h ⊢
  dsimp only at h ⊢
  split_ifs at h ⊢ with hRefuses hClosed
  · cases opening with
    | complete id n hello probe => exact fun hNone => by cases hNone
    | _ => cases h
  · exact hClosed

/-- During a call, one entry takes an operation and the caller has what it leaves. -/
theorem Session.call_follows {id : Nat} {call : Call} {waits : List Wait} {c : Caller} {w : World}
    {g : Option Gain} (hCalled : Session.Called s id call waits c w g) (hApart : s.Apart)
    (hPool : Tracks pool s.world) (hHolds : s.Holds pool) :
    ∃ pool', Tracks pool' w ∧ (s.settle id c w g).Holds pool' ∧
      ∀ k, Event.Lives (.call id call waits) (pool k) (pool' k) := by
  rcases hCalled.cases with ⟨h, hHold, hEffect⟩ | ⟨server, user, aware, node, rfl, -⟩
  · obtain ⟨hHeld, hOpen⟩ := hHolds id c h hCalled.caller hHold
    obtain ⟨ctx, hSocket⟩ : ∃ ctx, (pool h.key).entry.socket = some ctx :=
      Option.ne_none_iff_exists'.mp (Conn.socket_eq_none.not.mpr hOpen)
    obtain ⟨u, hUse, hEntry, hStill⟩ := hCalled.follows hHold hPool hHeld ctx
    have hTouches := hApart.touches hCalled.caller hHold hEffect
    refine ⟨_, tracks_update hPool hTouches.others hEntry, hHolds.settle hTouches.alone ?_,
      Event.lives_update (.use u) ?_ ?_⟩
    · rintro g' h' rfl hHold'
      obtain ⟨hKey, hSame⟩ := hEffect.keeps hHold'
      refine ⟨hKey, by simpa [hHold'] using hStill, ?_⟩
      rw [hEntry, ← Option.isSome_iff_ne_none, Conn.isSome_of_held hSame]
      exact Option.isSome_iff_ne_none.mpr (hPool h.key ▸ hOpen)
    · simp [Tracked.step, hSocket, hHeld]
    · exact fun hReads => ⟨id, waits, by rw [hUse.asks hReads]⟩
  · rcases hCalled.acquires hPool with ⟨hWorld, rfl⟩ | ⟨k, held, hAcquires, hGain⟩
    · refine ⟨pool, fun k => (hPool k).trans (congrFun hWorld k).symm, ?_, fun k => .inl rfl⟩
      exact hHolds.of_callers fun id' c' h' hCaller hHold =>
        ⟨c', Session.settle_none_callers hCaller, hHold⟩
    · obtain ⟨hFree, hOthers, opening, hEntry, hStill⟩ := hAcquires
      refine ⟨_, tracks_update hPool hOthers hEntry, hHolds.settle ?_ ?_,
        Event.lives_update (.acquire server user aware node s.world.subid opening) ?_ ?_⟩
      · rintro id' c' h' - hCaller hHold rfl
        exact absurd (hFree.symm.trans (hApart.leased id' c' h' hCaller hHold)) Bool.false_ne_true
      · rintro g' h' rfl hHold'
        obtain ⟨rfl, rfl⟩ := hGain g' rfl
        cases hHold'
        exact ⟨rfl, hStill, Tracked.acquire_open hStill⟩
      · rw [Tracked.step, if_neg]
        rw [hPool k]
        exact Bool.eq_false_iff.mp hFree
      · intro hReads
        cases hReads

/-- A step of a session is, for every entry, a step of its life, or nothing. -/
theorem Session.step_follows (hStep : Session.step event s = .ok s') (hApart : s.Apart)
    (hSafe : event = .abortSub → s.AbortSafe) (hPool : Tracks pool s.world)
    (hHolds : s.Holds pool) :
    ∃ pool', Tracks pool' s'.world ∧ s'.Holds pool' ∧ ∀ k, event.Lives (pool k) (pool' k) := by
  cases Session.moves_of_step hStep with
  | enter id serverid soft hNew =>
    refine ⟨pool, hPool, fun id' c' h' hCaller hHold => ?_, fun k => .inl rfl⟩
    rcases Session.enter_callers hCaller with rfl | hCaller
    · cases hHold
    · exact hHolds id' c' h' hCaller hHold
  | call id call waits c w g hCalled => exact Session.call_follows hCalled hApart hPool hHolds
  | moved serverid userid => exact ⟨pool, hPool, hHolds, fun k => .inl rfl⟩
  | startSub hRunning => exact ⟨pool, hPool, hHolds, fun k => .inl rfl⟩
  | commitSub parent subs hRunning hSubs =>
    refine ⟨pool, hPool, hHolds.of_callers fun id c h hCaller hHold => ?_, fun k => .inl rfl⟩
    obtain ⟨c', hCaller', rfl⟩ := Option.map_eq_some_iff.mp hCaller
    refine ⟨c', hCaller', ?_⟩
    split at hHold
    · exact hHold
    · exact hHold
  | abortSub parent subs hSubs =>
    refine ⟨_, fun k => ?_, hHolds.abortSub hPool (hSafe rfl) parent subs,
      fun k => .inr ⟨.subxact s.world.subid, rfl, nofun⟩⟩
    exact congrArg (connSubxact s.world.subid) (hPool k)
  | endTop event hSubs =>
    refine ⟨fun k => (pool k).xact event, fun k => ?_, fun id c h hCaller => ?_,
      fun k => .inr ⟨.xact event, rfl, nofun⟩⟩
    · exact congrArg (connXact event) (hPool k)
    · cases hCaller
  | inval cacheid hashvalue =>
    exact ⟨_, hPool.inval cacheid hashvalue, hHolds.inval cacheid hashvalue,
      fun k => .inr ⟨.inval cacheid hashvalue, rfl, nofun⟩⟩
  | alterServer serverid options =>
    exact ⟨_, Tracks.inval (s := s.alterServer serverid options) hPool _ _,
      Session.Holds.inval (s := s.alterServer serverid options) hHolds _ _,
      fun k => .inr ⟨.inval _ _, rfl, nofun⟩⟩
  | changeMapping serverid who row umid hRow =>
    exact ⟨_, Tracks.inval (s := s.changeMapping serverid who row) hPool _ _,
      Session.Holds.inval (s := s.changeMapping serverid who row) hHolds _ _,
      fun k => .inr ⟨.inval _ _, rfl, nofun⟩⟩

/-- No subtransaction is rolled back over a connection that a caller around it is using. -/
def RollbackSafe (s : Session) (event : Event) : Prop := event = .abortSub → s.AbortSafe

/-- Every entry of the pool has gone through a run of operations since it was made, which asks
about the expiry of fields only where an event does. -/
def Session.Followed (s : Session) (residue : ConnKey → Conn) (events : List Event) : Prop :=
  ∃ pool, Tracks pool s.world ∧ s.Holds pool ∧
    ∀ k, ∃ ops, run Tracked.step ops (.enter (residue k)) = .ok (pool k) ∧
      ∀ op ∈ ops, op.reads = some .fieldTtl → ∃ event ∈ events, event.AsksTtl

theorem Session.followed_start (residue : ConnKey → Conn) (catalog : Catalog) (events : List Event) :
    (Session.start residue catalog).Followed residue events := by
  refine ⟨fun k => .enter (residue k), fun k => rfl, fun id c h hCaller => ?_,
    fun k => ⟨[], rfl, fun op hop => ?_⟩⟩
  · cases hCaller
  · cases hop

theorem Session.Followed.step {residue : ConnKey → Conn} {events : List Event}
    (hs : s.Followed residue events) (hEvent : event ∈ events) (hApart : s.Apart)
    (hSafe : RollbackSafe s event) (hStep : Session.step event s = .ok s') :
    s'.Followed residue events := by
  obtain ⟨pool, hPool, hHolds, hLives⟩ := hs
  obtain ⟨pool', hPool', hHolds', hMoves⟩ := Session.step_follows hStep hApart hSafe hPool hHolds
  refine ⟨pool', hPool', hHolds', fun k => ?_⟩
  obtain ⟨ops, hOps, hReads⟩ := hLives k
  rcases hMoves k with hSame | ⟨op, hOp, hAsks⟩
  · exact ⟨ops, hSame ▸ hOps, hReads⟩
  · refine ⟨ops ++ [op], run_append_ok.mpr ⟨_, hOps, by rwa [run_singleton]⟩, ?_⟩
    intro op' hop' hReads'
    rcases List.mem_append.mp hop' with hop' | hop'
    · exact hReads op' hop' hReads'
    · cases List.mem_singleton.mp hop'
      exact ⟨event, hEvent, hAsks hReads'⟩

/-- In every run whose rollbacks are safe, the entries follow. -/
theorem session_follows (residue : ConnKey → Conn) (catalog : Catalog) (events : List Event)
    (hSafe : Along Session.step RollbackSafe events (.start residue catalog))
    {s : Session} (hRun : run Session.step events (.start residue catalog) = .ok s) :
    s.Followed residue events := by
  refine (hSafe.run_invariant (I := fun s => s.Apart ∧ s.Followed residue events) ?_
    ⟨Session.apart_start residue catalog, Session.followed_start residue catalog events⟩ hRun).2
  rintro event hEvent s t ⟨hApart, hFollowed⟩ hSafe hStep
  exact ⟨hApart.step hSafe hStep, hFollowed.step hEvent hApart hSafe hStep⟩

/-- So what the pool goes by was learned on the socket that is open, in every such run in
which nobody asks about the expiry of fields. -/
theorem session_facts_current (residue : ConnKey → Conn) (catalog : Catalog) (events : List Event)
    (hSafe : Along Session.step RollbackSafe events (.start residue catalog))
    (hAsks : ∀ event ∈ events, ¬event.AsksTtl)
    {s : Session} (hRun : run Session.step events (.start residue catalog) = .ok s) (k : ConnKey) :
    ∃ ops t, run Tracked.step ops (.enter (residue k)) = .ok t ∧ t.entry = s.world.pool k ∧
      Along Tracked.step Tracked.Acts ops (.enter (residue k)) := by
  obtain ⟨pool, hPool, -, hLives⟩ := session_follows residue catalog events hSafe hRun
  obtain ⟨ops, hOps, hReads⟩ := hLives k
  refine ⟨ops, pool k, hOps, hPool k, Tracked.along_acts (residue k) fun op hop hTtl => ?_⟩
  obtain ⟨event, hEvent, hAsk⟩ := hReads op hop hTtl
  exact hAsks event hEvent hAsk

end Sessions

end ValkeyFdw.Pool
