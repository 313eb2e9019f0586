import ValkeyFdw.Pool.Conn

/-!
# What the pool's programs do to it

A program that uses a connection leaves every other entry alone, and of its own changes
neither the lease nor where the socket leads (`Uses`). Taking a connection touches one
entry that nobody held; `Picked` says what that entry is like, and `picks` which one it is,
however the taking ends.
-/

namespace ValkeyFdw.Pool

open Raise

/-! ## The steps of programs -/

section Rules

variable {α : Type} {k : ConnKey} {w : World} {E : World → Prop}

@[simp] theorem wp_readConn {Q : Conn → World → Prop} : wp (readConn k) Q E w ↔ Q (w.pool k) w :=
  wp_map.trans wp_get

@[simp] theorem wp_modifyConn {Q : Unit → World → Prop} {f : Conn → Conn} :
    wp (modifyConn k f) Q E w ↔ Q () (w.setConn k (f (w.pool k))) := Iff.rfl

@[simp] theorem wp_raiseIf {Q : Unit → World → Prop} {c : Bool} {e : PoolError} :
    wp (raiseIf c e) Q E w ↔ (c = true → E w) ∧ (c = false → Q () w) := by
  cases c <;> simp [raiseIf]

/-- The next wait is answered. -/
def World.Answered (w : World) : Prop := ∃ a rest, w.waits = .answers a :: rest

theorem wp_await {Q : Answer → World → Prop}
    (hQ : ∀ a rest, w.waits = .answers a :: rest → Q a { w with waits := rest })
    (hE : ∀ rest, ¬w.Answered → E { w with waits := rest }) : wp await Q E w := by
  unfold await
  simp only [wp_bind, wp_get]
  split
  · rename_i a rest hWaits
    exact hQ a rest hWaits
  · rename_i rest hWaits
    exact hE rest (by simp [World.Answered, hWaits])
  · rename_i hWaits
    exact hE w.waits (by simp [World.Answered, hWaits])

theorem wp_socketAt {Q : Socket → World → Prop} {ctx : Option Nat}
    (hQ : ∀ sock, (w.pool k).conn = some sock → ctx = some sock.link.id → Q sock w) (hE : E w) :
    wp (socketAt k ctx) Q E w := by
  unfold socketAt
  simp only [wp_bind, wp_readConn]
  split
  · rename_i sock hSock
    exact wp_ite.mpr ⟨fun hCtx => hQ sock hSock hCtx, fun _ => hE⟩
  · exact hE

theorem wp_ioFlush {Q : Unit → World → Prop} (hQ : ∀ rest, Q () { w with waits := rest })
    (hE : ∀ rest, E { w with waits := rest }) : wp ioFlush Q E w :=
  wp_bind.mpr (wp_await (fun _ rest _ => hQ rest) fun rest _ => hE rest)

end Rules

@[simp] theorem World.setConn_self (w : World) (k : ConnKey) (e : Conn) :
    (w.setConn k e).pool k = e := Function.update_self ..

theorem World.setConn_of_ne (w : World) {k k' : ConnKey} (e : Conn) (h : k' ≠ k) :
    (w.setConn k e).pool k' = w.pool k' := Function.update_of_ne h ..

/-! ## Using a connection -/

/-- What stays the same about an entry while it is used. -/
structure Held where
  link : Option Link
  nodeHost : Bytes
  nodePort : Nat
  opts : ServerOptions
  invalidated : Bool
  leased : Bool
  leaseSubid : Nat
  serverHashvalue : Nat
  mappingHashvalue : Nat

def Conn.held (e : Conn) : Held :=
  ⟨e.conn.map Socket.link, e.nodeHost, e.nodePort, e.opts, e.invalidated, e.leased, e.leaseSubid,
    e.serverHashvalue, e.mappingHashvalue⟩

theorem Conn.isSome_of_held {e e' : Conn} (h : e'.held = e.held) :
    e'.conn.isSome = e.conn.isSome := by
  have hLink := congrArg (Option.isSome ∘ Held.link) h
  simpa [Conn.held] using hLink

/-- Where commands can go from an entry. -/
def Conn.leadsTo (e : Conn) (ep : Endpoint) : Prop := e.conn.map (·.link.endpoint) = some ep

theorem Conn.leadsTo_iff_held {e : Conn} {ep : Endpoint} :
    e.leadsTo ep ↔ e.held.link.map Link.endpoint = some ep := by
  simp [leadsTo, held, Function.comp_def]

/-- A connection was used: commands went where its socket leads, and nothing else of the
pool changed. -/
structure Uses (k : ConnKey) (w w' : World) : Prop where
  others : ∀ k', k' ≠ k → w'.pool k' = w.pool k'
  held : (w'.pool k).held = (w.pool k).held
  subid : w'.subid = w.subid
  opens : w'.opens = w.opens
  maps : w'.maps = w.maps
  sent : ∃ eps, w'.sent = w.sent ++ eps ∧ ∀ ep ∈ eps, (w.pool k).leadsTo ep

namespace Uses

variable {k : ConnKey} {w w' w'' : World}

theorem of_pool (w : World) (rest : List Wait) : Uses k w { w with waits := rest } :=
  ⟨fun _ _ => rfl, rfl, rfl, rfl, rfl, [], by simp⟩

theorem of_setConn {e : Conn} (h : e.held = (w.pool k).held) : Uses k w (w.setConn k e) :=
  ⟨fun _ => w.setConn_of_ne e, by rwa [w.setConn_self], rfl, rfl, rfl, [], by simp [World.setConn]⟩

theorem trans (h : Uses k w w') (h' : Uses k w' w'') : Uses k w w'' where
  others k' hk := (h'.others k' hk).trans (h.others k' hk)
  held := h'.held.trans h.held
  subid := h'.subid.trans h.subid
  opens := h'.opens.trans h.opens
  maps := h'.maps.trans h.maps
  sent := by
    obtain ⟨eps, hSent, hTo⟩ := h.sent
    obtain ⟨eps', hSent', hTo'⟩ := h'.sent
    refine ⟨eps ++ eps', by rw [hSent', hSent, List.append_assoc], ?_⟩
    intro ep hep
    rcases List.mem_append.mp hep with hep | hep
    · exact hTo ep hep
    · exact Conn.leadsTo_iff_held.mpr (h.held ▸ Conn.leadsTo_iff_held.mp (hTo' ep hep))

instance : Std.Refl (Uses k) := ⟨fun w => of_pool w w.waits⟩

instance : IsTrans World (Uses k) := ⟨fun _ _ _ => trans⟩

end Uses

/-! ## Traffic -/

/-- What the pieces of the traffic on a connection keep. -/
structure Wired (k : ConnKey) (R : World → World → Prop) : Prop where
  await : Keeps R await
  append : ∀ ctx, Keeps R (appendCommand k ctx)
  reply : ∀ ctx, Keeps R (ioGetReply k ctx)

/-- The mark as well. -/
structure Wired.Marked (k : ConnKey) (R : World → World → Prop) : Prop extends Wired k R where
  mark : ∀ marked, Keeps R (modifyConn k fun e => { e with inConversation := marked })

section Wired

variable {k : ConnKey} {R : World → World → Prop} [Std.Refl R]

theorem keeps_readConn (k : ConnKey) : Keeps R (readConn k) := Keeps.get.map

theorem keeps_raiseIf (c : Bool) (e : PoolError) : Keeps R (raiseIf c e) := by
  unfold raiseIf
  split
  · exact .throw e
  · exact .pure ()

variable [IsTrans World R]

theorem Wired.keeps_ioFlush (h : Wired k R) : Keeps R ioFlush := h.await.bind fun _ => .pure ()

theorem Wired.keeps_roundTrip (h : Wired k R) : Keeps R (roundTrip k) :=
  (keeps_readConn k).bind fun _ => (h.append _).bind fun _ => h.keeps_ioFlush.bind fun _ => h.reply _

theorem Wired.keeps_batchFlush (h : Wired k R) (b : Batch) : Keeps R (batchFlush b) := by
  unfold batchFlush
  split
  · exact .pure b
  · exact h.keeps_ioFlush.bind fun _ => .pure _

theorem batchFlush_key (b : Batch) (w : World) :
    wp (batchFlush b) (fun b' _ => b'.key = b.key ∧ b'.ctx = b.ctx) (fun _ => True) w := by
  unfold batchFlush
  refine wp_ite.mpr ⟨fun _ => ⟨rfl, rfl⟩, fun _ => ?_⟩
  exact wp_bind.mpr (wp_ioFlush (fun _ => ⟨rfl, rfl⟩) fun _ => trivial)

theorem Wired.keeps_batchAdd {b : Batch} (h : Wired b.key R) (w : World) :
    wp (batchAdd b) (fun b' w' => R w w' ∧ b'.key = b.key) (R w) w := by
  unfold batchAdd
  rw [wp_bind]
  refine wp_mono (h.append b.ctx w) ?_ fun _ => id
  intro _ w' hSent
  refine wp_ite.mpr ⟨fun _ => ?_, fun _ => ⟨hSent, rfl⟩⟩
  refine wp_mono (wp_and (h.keeps_batchFlush _ w') (batchFlush_key _ w')) ?_ fun _ hFails => ?_
  · exact fun _ _ hFlushed => ⟨trans_of R hSent hFlushed.1, hFlushed.2.1⟩
  · exact trans_of R hSent hFails.1

theorem Wired.keeps_batchNext {b : Batch} (h : Wired b.key R) (w : World) :
    wp (batchNext b) (fun r w' => R w w' ∧ r.1.key = b.key) (R w) w := by
  unfold batchNext
  rw [wp_bind]
  refine wp_mono (wp_and (h.keeps_batchFlush b w) (batchFlush_key b w)) ?_ fun _ => And.left
  rintro b' w' ⟨hFlushed, hKey, hCtx⟩
  refine wp_ite.mpr ⟨fun _ => ⟨hFlushed, hKey⟩, fun _ => ?_⟩
  rw [wp_bind, hKey]
  refine wp_mono (h.reply _ w') (fun _ _ hRead => ?_) fun _ hFails => trans_of R hFlushed hFails
  exact ⟨trans_of R hFlushed hRead, rfl⟩

theorem Wired.keeps_batchDrain (n : Nat) {b : Batch} (h : Wired b.key R) (w : World) :
    wp (batchDrain n b) (fun b' w' => R w w' ∧ b'.key = b.key) (R w) w := by
  induction n generalizing b w with
  | zero => exact ⟨refl_of R w, rfl⟩
  | succ n ih =>
    unfold batchDrain
    rw [wp_bind]
    refine wp_mono (h.keeps_batchNext w) ?_ fun _ => id
    rintro r w' ⟨hRead, hKey⟩
    have hRest := ih (b := r.1) (hKey ▸ h) w'
    rw [hKey] at hRest
    exact wp_mono hRest (fun _ _ hEnds => ⟨trans_of R hRead hEnds.1, hEnds.2⟩)
      fun _ hFails => trans_of R hRead hFails

theorem Wired.Marked.keeps_connCommand (h : Wired.Marked k R) (what : String) :
    Keeps R (connCommand k what) := by
  refine (keeps_readConn k).bind fun e => (h.mark true).bind fun _ => ?_
  refine h.keeps_roundTrip.bind fun a => (keeps_raiseIf _ _).bind fun _ => ?_
  exact (h.mark _).bind fun _ => .pure a

theorem Wired.Marked.keeps_batchBegin (h : Wired.Marked k R) (w : World) :
    wp (batchBegin k) (fun b w' => R w w' ∧ b.key = k) (R w) w := by
  have hMark : Keeps R (batchBegin k) :=
    (keeps_readConn k).bind fun _ => (h.mark true).bind fun _ => .pure _
  refine wp_mono (wp_and (hMark w)
    (show wp (batchBegin k) (fun b _ => b.key = k) (fun _ => True) w from rfl)) ?_
    fun _ => And.left
  exact fun _ _ => id

theorem Wired.Marked.keeps_batchEnd {b : Batch} (h : Wired.Marked b.key R) :
    Keeps R (batchEnd b) := by
  intro w
  unfold batchEnd
  rw [wp_bind]
  refine wp_mono (h.keeps_batchDrain b.pending w) ?_ fun _ => id
  rintro b' w' ⟨hDrained, hKey⟩
  rw [hKey]
  exact wp_mono (h.mark false w') (fun _ _ hMark => trans_of R hDrained hMark)
    fun _ hMark => trans_of R hDrained hMark

/-- One command is sent and its reply read, and the program goes on. -/
theorem Wired.Marked.wp_exchange {α : Type} {f : Batch × Option Answer → Proc α}
    {Q : α → World → Prop} {E : World → Prop} {w : World} (h : Wired.Marked k R)
    (hFails : ∀ w', R w w' → E w')
    (hGoesOn : ∀ r w', R w w' → r.1.key = k → wp (f r) Q E w') :
    wp (do
      let b ← batchBegin k
      let b ← batchAdd b
      let r ← batchNext b
      f r) Q E w := by
  rw [wp_bind]
  refine wp_mono (h.keeps_batchBegin w) ?_ hFails
  rintro b w₁ ⟨h₁, rfl⟩
  rw [wp_bind]
  refine wp_mono (h.keeps_batchAdd w₁) ?_ fun u hu => hFails u (trans_of R h₁ hu)
  rintro b₂ w₂ ⟨h₂, hKey₂⟩
  rw [← hKey₂] at h
  have hSent := trans_of R h₁ h₂
  rw [wp_bind]
  refine wp_mono (h.keeps_batchNext w₂) ?_ fun u hu => hFails u (trans_of R hSent hu)
  exact fun r w₃ ⟨h₃, hKey₃⟩ => hGoesOn r w₃ (trans_of R hSent h₃) (hKey₃.trans hKey₂)

theorem Wired.Marked.keeps_clusterLoad (h : Wired.Marked k R) : Keeps R (clusterLoad k) := by
  intro w
  refine h.wp_exchange (fun _ => id) fun r w' hRead hKey => ?_
  subst hKey
  split
  · rw [wp_bind]
    exact wp_mono (h.keeps_batchEnd w') (fun _ _ hEnd => trans_of R hRead hEnd)
      fun _ hEnd => trans_of R hRead hEnd
  · exact hRead

end Wired

section Using

variable (k : ConnKey)

/-- Flags and counters may change, the lease and the socket's link may not. -/
theorem uses_modifyConn {f : Conn → Conn} (h : ∀ e : Conn, (f e).held = e.held) :
    Keeps (Uses k) (modifyConn k f) := Keeps.modify fun w => .of_setConn (h (w.pool k))

theorem uses_await : Keeps (Uses k) await :=
  fun w => wp_await (fun _ rest _ => .of_pool w rest) fun rest _ => .of_pool w rest

theorem uses_appendCommand (ctx : Option Nat) : Keeps (Uses k) (appendCommand k ctx) := by
  refine .bind (uses_await k) fun _ w => wp_bind.mpr (wp_socketAt ?_ (refl_of (Uses k) w))
  intro sock hSock _
  rw [wp_modify]
  refine ⟨fun _ => w.setConn_of_ne _, ?_, rfl, rfl, rfl, [sock.link.endpoint], rfl, ?_⟩
  · rw [World.hand, World.setConn_self]
    simp [Conn.held, hSock]
  · simp [Conn.leadsTo, hSock]

theorem uses_ioGetReply (ctx : Option Nat) : Keeps (Uses k) (ioGetReply k ctx) := by
  refine .bind (uses_await k) fun a w => wp_bind.mpr (wp_socketAt ?_ (refl_of (Uses k) w))
  intro sock hSock _
  rw [wp_bind, wp_modifyConn, wp_pure]
  exact .of_setConn (by simp [Conn.held, hSock])

theorem wired_uses : Wired.Marked k (Uses k) where
  await := uses_await k
  append := uses_appendCommand k
  reply := uses_ioGetReply k
  mark _ := uses_modifyConn k fun _ => rfl

theorem uses_connForceHandshake : Keeps (Uses k) (connForceHandshake k) := by
  refine (keeps_readConn k).bind fun e => ?_
  split
  · exact (uses_await k).bind fun _ => ((wired_uses k).keeps_connCommand _).bind fun _ => .pure ()
  · exact .pure ()

theorem uses_connAuthenticate (user : UserOptions) : Keeps (Uses k) (connAuthenticate k user) := by
  unfold connAuthenticate
  split
  · exact .pure ()
  · exact ((wired_uses k).keeps_connCommand _).bind fun _ => .pure ()

theorem uses_connNegotiateResp3 : Keeps (Uses k) (connNegotiateResp3 k) := by
  refine (wired_uses k).keeps_roundTrip.bind fun a => (keeps_raiseIf _ _).bind fun _ => ?_
  exact uses_modifyConn k fun e => rfl

theorem uses_connProbeScript : Keeps (Uses k) (connProbeScript k) := by
  refine (wired_uses k).keeps_roundTrip.bind fun a => ?_
  exact uses_modifyConn k fun e => rfl

theorem uses_connSelectDb (database : Int) : Keeps (Uses k) (connSelectDb k database) := by
  have hSet : ∀ d : Int, Keeps (Uses k) (modifyConn k fun e => { e with database := d }) :=
    fun d => uses_modifyConn k fun e => rfl
  refine (keeps_readConn k).bind fun e => ?_
  split
  · exact .pure ()
  · split
    · exact (keeps_raiseIf _ _).bind fun _ => hSet 0
    · exact (hSet _).bind fun _ => ((wired_uses k).keeps_connCommand _).bind fun _ => hSet database

theorem uses_ttlRequire : Keeps (Uses k) (ttlRequire k) := by
  refine .bind ?_ fun _ => (keeps_readConn k).bind fun e => keeps_raiseIf _ _
  refine (keeps_readConn k).bind fun e => ?_
  split
  · refine (wired_uses k).keeps_roundTrip.bind fun a => ?_
    exact uses_modifyConn k fun e => rfl
  · exact .pure ()

end Using

/-! ## Taking a connection -/

section Take

variable {entry : Nat → Conn} {node : Option Node}

/-- The slot that is found is free, and the flag says whether it points at the node. -/
theorem freeSlotFrom_spec {slots : List Nat} {virgin victim : Option Nat} {i : Nat} {matched : Bool}
    (h : freeSlotFrom entry node slots virgin victim = some (i, matched)) :
    (i ∈ slots ∧ (entry i).leased = false ∧ matched = connNodeMatches (entry i) node) ∨
      (matched = false ∧ (virgin = some i ∨ victim = some i)) := by
  induction slots generalizing virgin victim with
  | nil =>
    obtain ⟨j, hj, hEq⟩ := Option.map_eq_some_iff.mp h
    cases hEq
    rcases Option.or_eq_some_iff.mp hj with hj | ⟨-, hj⟩
    · exact .inr ⟨rfl, .inl hj⟩
    · exact .inr ⟨rfl, .inr hj⟩
  | cons j slots ih =>
    have hRest : ∀ {virgin victim : Option Nat},
        freeSlotFrom entry node slots virgin victim = some (i, matched) →
        (i ∈ j :: slots ∧ (entry i).leased = false ∧ matched = connNodeMatches (entry i) node) ∨
          (matched = false ∧ (virgin = some i ∨ victim = some i)) := by
      intro virgin victim h
      rcases ih h with ⟨hi, hFree⟩ | hKept
      · exact .inl ⟨List.mem_cons_of_mem j hi, hFree⟩
      · exact .inr hKept
    unfold freeSlotFrom at h
    split at h
    · exact hRest h
    · rename_i hLeased
      rw [Bool.not_eq_true] at hLeased
      split at h
      · rename_i hMatches
        cases h
        exact .inl ⟨List.mem_cons_self, hLeased, hMatches.symm⟩
      · rename_i hMatches
        rw [Bool.not_eq_true] at hMatches
        -- The slot is remembered, unless one of its kind was remembered before.
        have hHere : j = i → matched = false →
            i ∈ j :: slots ∧ (entry i).leased = false ∧
              matched = connNodeMatches (entry i) node := by
          rintro rfl rfl
          exact ⟨List.mem_cons_self, hLeased, hMatches.symm⟩
        split at h
        · rcases hRest h with hi | ⟨hNot, hVirgin | hVictim⟩
          · exact .inl hi
          · rcases Option.or_eq_some_iff.mp hVirgin with hVirgin | ⟨-, hj⟩
            · exact .inr ⟨hNot, .inl hVirgin⟩
            · exact .inl (hHere (Option.some.inj hj) hNot)
          · exact .inr ⟨hNot, .inr hVictim⟩
        · rcases hRest h with hi | ⟨hNot, hVirgin | hVictim⟩
          · exact .inl hi
          · exact .inr ⟨hNot, .inl hVirgin⟩
          · rcases Option.or_eq_some_iff.mp hVictim with hVictim | ⟨-, hj⟩
            · exact .inr ⟨hNot, .inr hVictim⟩
            · exact .inl (hHere (Option.some.inj hj) hNot)

theorem freeSlotFrom_isSome {slots : List Nat} {virgin victim : Option Nat}
    (h : (∃ i ∈ slots, (entry i).leased = false) ∨ virgin.isSome ∨ victim.isSome) :
    (freeSlotFrom entry node slots virgin victim).isSome = true := by
  induction slots generalizing virgin victim with
  | nil => cases virgin <;> cases victim <;> simp_all [freeSlotFrom]
  | cons j slots ih =>
    unfold freeSlotFrom
    split
    · rename_i hLeased
      refine ih (h.imp_left ?_)
      rintro ⟨i, hi, hFree⟩
      rcases List.mem_cons.mp hi with rfl | hi
      · rw [hLeased] at hFree
        cases hFree
      · exact ⟨i, hi, hFree⟩
    · split
      · rfl
      · split
        · exact ih (.inr (.inl (by cases virgin <;> rfl)))
        · exact ih (.inr (.inr (by cases victim <;> rfl)))

end Take

theorem World.setConn_setConn (w : World) (k : ConnKey) (e e' : Conn) :
    (w.setConn k e).setConn k e' = w.setConn k e' := by simp [World.setConn]

section Open

variable (k : ConnKey) (user : UserOptions)

/-- Opening fails at the connect, or the entry has its new socket from then on. -/
theorem connOpen_uses (w : World) :
    wp (connOpen k user) (fun _ w' => Uses k (w.open k user) w')
      (fun w' => (¬w.Answered ∧ ∃ rest, w' = { w with waits := rest }) ∨
        Uses k (w.open k user) w') w := by
  unfold connOpen
  rw [wp_bind]
  refine wp_await (fun _ rest _ => ?_) fun rest hFails => .inl ⟨hFails, rest, rfl⟩
  rw [wp_bind, wp_modify]
  have hSetup : Keeps (Uses k) (do
      connForceHandshake k
      connAuthenticate k user
      connNegotiateResp3 k
      connProbeScript k
      modifyConn k fun e => { e with inConversation := false }) :=
    (uses_connForceHandshake k).bind fun _ => (uses_connAuthenticate k user).bind fun _ =>
      (uses_connNegotiateResp3 k).bind fun _ => (uses_connProbeScript k).bind fun _ =>
        (wired_uses k).mark false
  have hStart : Uses k (w.open k user) ({ w with waits := rest }.open k user) :=
    .of_pool (w.open k user) rest
  exact wp_mono (hSetup _) (fun _ _ h => hStart.trans h) fun _ h => .inr (hStart.trans h)

end Open

section Acquire

variable [SysCache] {server : ForeignServer} {user : UserMapping} {clusterAware : Bool}
  {node : Option Node} {w : World} {k : ConnKey} {e : Conn}

/-- The entry that a request gets and what is made of it: it is leased, pointed at the
node, closed if it led elsewhere or was stale, and told of the definitions. -/
def picks (server : ForeignServer) (user : UserMapping) (node : Option Node) (w : World) :
    Option (ConnKey × Conn) :=
  (freeSlotFrom (fun i => w.pool ⟨server.serverid, user.userid, i⟩) node (List.range maxConnSlots)
    none none).map fun r =>
      (⟨server.serverid, user.userid, r.1⟩, connRecord server user
        (if r.2 then connLease w.subid (w.pool ⟨server.serverid, user.userid, r.1⟩)
          else connClaim w.subid node (w.pool ⟨server.serverid, user.userid, r.1⟩)))

/-- The request is turned down before anything is opened. -/
def refuses (server : ForeignServer) (user : UserMapping) (clusterAware : Bool) : Bool :=
  passwordMissing user || (server.options.cluster && !clusterAware)

theorem wp_getConnectionInternal {Q : ConnKey → World → Prop} {E : World → Prop}
    (hNone : picks server user node w = none → E w)
    (hRefused : ∀ k e, picks server user node w = some (k, e) →
      refuses server user clusterAware = true → E (w.setConn k e))
    (hOpen : ∀ k e, picks server user node w = some (k, e) →
      refuses server user clusterAware = false → e.conn = none →
        wp (connOpen k user.options) (fun _ => Q k) E (w.setConn k e))
    (hReused : ∀ k e, picks server user node w = some (k, e) →
      refuses server user clusterAware = false → e.conn ≠ none → Q k (w.setConn k e)) :
    wp (getConnectionInternal server user clusterAware node) Q E w := by
  -- What follows the choice of an entry is the same for one that matches and one that does not.
  have hRest : ∀ (k : ConnKey) (e : Conn), picks server user node w = some (k, e) →
      wp (do
        raiseIf (passwordMissing user) .passwordRequired
        raiseIf (server.options.cluster && !clusterAware) .clusterUnsupported
        connEnsure k user.options
        pure k : Proc ConnKey) Q E (w.setConn k e) := by
    intro k e hPicks
    simp only [wp_bind, wp_raiseIf, connEnsure, wp_readConn, wp_ite, wp_pure, World.setConn_self]
    refine ⟨fun hMissing => hRefused k e hPicks (by simp [refuses, hMissing]), fun hMissing => ?_⟩
    refine ⟨fun hCluster => hRefused k e hPicks (by simp [refuses, hCluster]), fun hCluster => ?_⟩
    have hPasses : refuses server user clusterAware = false := by simp [refuses, hMissing, hCluster]
    exact ⟨hOpen k e hPicks hPasses, hReused k e hPicks hPasses⟩
  unfold getConnectionInternal connTakeFreeSlot
  simp only [wp_bind, wp_get]
  split
  · rename_i i hSlot
    simp only [wp_bind, wp_modifyConn, wp_pure, World.setConn_self, World.setConn_setConn]
    simpa using hRest _ _ (by simp [picks, hSlot])
  · rename_i i hSlot
    simp only [wp_bind, wp_modifyConn, wp_pure, World.setConn_self, World.setConn_setConn]
    simpa using hRest _ _ (by simp [picks, hSlot])
  · rename_i hSlot
    exact hNone (by simp [picks, hSlot])

/-- What a request makes of the entry it gets. -/
structure Picked (server : ForeignServer) (user : UserMapping) (node : Option Node) (w : World)
    (k : ConnKey) (e : Conn) : Prop where
  serverid : k.serverid = server.serverid
  userid : k.userid = user.userid
  slot : k.slot < maxConnSlots
  free : (w.pool k).leased = false
  leased : e.leased = true
  leaseSubid : e.leaseSubid = w.subid
  invalidated : e.invalidated = false
  mappingHashvalue : e.mappingHashvalue = SysCache.hashValue .userMapping user.umid
  serverHashvalue : e.serverHashvalue = SysCache.hashValue .foreignServer server.serverid
  opts : e.opts = server.options
  /-- Closed, or as it was. -/
  socket : (e.conn = none ∧ (e.inConversation = true → (w.pool k).inConversation = true)) ∨
    ((w.pool k).invalidated = false ∧ e.conn = (w.pool k).conn ∧
      e.inConversation = (w.pool k).inConversation ∧ e.nodeHost = (w.pool k).nodeHost ∧
        e.nodePort = (w.pool k).nodePort)
  own : node = none → e.nodeHost = []
  named : ∀ n, node = some n → n.host.length < maxNodeHost →
    e.nodeHost = n.host ∧ e.nodePort = n.port

omit [SysCache] in
theorem nodeHost_eq_of_matches {e : Conn} {n : Node} (h : connNodeMatches e (some n) = true)
    (hFits : n.host.length < maxNodeHost) : e.nodeHost = n.host ∧ e.nodePort = n.port := by
  simp only [connNodeMatches, Bool.and_eq_true, decide_eq_true_eq] at h
  obtain ⟨hPort, hHost⟩ := h
  rw [List.take_of_length_le hFits.le] at hHost
  have hLength := congrArg List.length hHost
  rw [List.length_take] at hLength
  rw [List.take_of_length_le (by omega)] at hHost
  exact ⟨hHost, hPort⟩

theorem connRecord_of_invalidated (server : ForeignServer) (user : UserMapping) {e : Conn}
    (h : e.invalidated = true) :
    (connRecord server user e).conn = none ∧ (connRecord server user e).inConversation = false := by
  simp [connRecord, connRevalidate, connClose, h]

theorem connRecord_of_valid (server : ForeignServer) (user : UserMapping) {e : Conn}
    (h : e.invalidated = false) :
    (connRecord server user e).conn = e.conn ∧
      (connRecord server user e).inConversation = e.inConversation := by
  simp [connRecord, connRevalidate, h]

theorem connRecord_kept (server : ForeignServer) (user : UserMapping) (e : Conn) :
    (connRecord server user e).leased = e.leased ∧
      (connRecord server user e).leaseSubid = e.leaseSubid ∧
      (connRecord server user e).nodeHost = e.nodeHost ∧
      (connRecord server user e).nodePort = e.nodePort ∧
      (connRecord server user e).invalidated = false := by
  cases h : e.invalidated <;> simp [connRecord, connRevalidate, connClose, h]

theorem picked_of_picks (h : picks server user node w = some (k, e)) :
    Picked server user node w k e := by
  obtain ⟨⟨i, matched⟩, hSlot, hEq⟩ := Option.map_eq_some_iff.mp h
  obtain ⟨rfl, rfl⟩ := Prod.mk.inj hEq
  rcases freeSlotFrom_spec hSlot with ⟨hi, hFree, hMatched⟩ | ⟨-, hNone | hNone⟩
  · dsimp only at hFree hMatched ⊢
    generalize hk : (⟨server.serverid, user.userid, i⟩ : ConnKey) = k at *
    subst hMatched
    have hSlot : k.slot < maxConnSlots := hk ▸ List.mem_range.mp hi
    split_ifs with hMatches
    · obtain ⟨hLeased, hSubid, hHost, hPort, hValid⟩ :=
        connRecord_kept server user (connLease w.subid (w.pool k))
      refine ⟨hk ▸ rfl, hk ▸ rfl, hSlot, hFree, hLeased, hSubid, hValid, rfl, rfl, rfl, ?_, ?_, ?_⟩
      · cases hStale : (w.pool k).invalidated with
        | true =>
          obtain ⟨hConn, hMarked⟩ := connRecord_of_invalidated server user
            (show (connLease w.subid (w.pool k)).invalidated = true from hStale)
          exact .inl ⟨hConn, by simp [hMarked]⟩
        | false =>
          obtain ⟨hConn, hMarked⟩ := connRecord_of_valid server user
            (show (connLease w.subid (w.pool k)).invalidated = false from hStale)
          exact .inr ⟨rfl, hConn, hMarked, hHost, hPort⟩
      · rintro rfl
        simp only [connNodeMatches, decide_eq_true_eq] at hMatches
        exact hHost.trans hMatches
      · rintro n rfl hFits
        rw [hHost, hPort]
        exact nodeHost_eq_of_matches hMatches hFits
    · obtain ⟨hLeased, hSubid, hHost, hPort, hValid⟩ :=
        connRecord_kept server user (connClaim w.subid node (w.pool k))
      refine ⟨hk ▸ rfl, hk ▸ rfl, hSlot, hFree, hLeased, hSubid, hValid, rfl, rfl, rfl, ?_, ?_, ?_⟩
      · have hClosed : (connRecord server user (connClaim w.subid node (w.pool k))).conn = none ∧
            (connRecord server user (connClaim w.subid node (w.pool k))).inConversation = false := by
          cases hStale : (w.pool k).invalidated with
          | true => exact connRecord_of_invalidated server user hStale
          | false => exact connRecord_of_valid server user hStale
        exact .inl ⟨hClosed.1, by simp [hClosed.2]⟩
      · rintro rfl
        exact hHost
      · rintro n rfl hFits
        rw [hHost, hPort]
        refine ⟨List.take_of_length_le ?_, rfl⟩
        omega
  · cases hNone
  · cases hNone

end Acquire

end ValkeyFdw.Pool
