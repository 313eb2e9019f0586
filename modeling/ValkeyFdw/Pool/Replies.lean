import ValkeyFdw.Pool.Lease

/-!
# Replies that nobody read

A socket whose replies were not all read must not reach the next user. The pool goes by a
mark on the entry: whoever may leave replies behind marks it first, a failure leaves the
mark, and the end of the transaction closes what is marked. Every program that talks on a
connection does so, with one exception: the probe for the expiry of fields asks without a
mark, and a cancel while it waits leaves its reply for whoever comes next.

`every_reply_is_read` says that in a run without that, nothing unread is left behind and
every caller finds on its connection the replies to its own commands and no others.
-/

namespace ValkeyFdw.Pool

open Raise Trace

/-! ## Entries and what is unread on them -/

/-- What is unread is marked. -/
def Conn.Marked (e : Conn) : Prop := ∀ sock, e.conn = some sock → 0 < sock.unread → e.inConversation = true

/-- Nothing is unread, and nothing is marked. -/
def Conn.Quiet (e : Conn) : Prop :=
  ∀ sock, e.conn = some sock → sock.unread = 0 ∧ e.inConversation = false

/-- The socket `ctx` is open, with `n` replies to come and this mark. -/
def Conn.On (ctx n : Nat) (mark : Bool) (e : Conn) : Prop :=
  ∃ sock, e.conn = some sock ∧ sock.link.id = ctx ∧ sock.unread = n ∧ e.inConversation = mark

section Entries

variable {ctx n : Nat} {mark : Bool} {e : Conn}

theorem Conn.Quiet.marked (h : e.Quiet) : e.Marked := by
  intro sock hSock hUnread
  rw [(h sock hSock).1] at hUnread
  cases hUnread

theorem Conn.On.marked (h : e.On ctx n true) : e.Marked := by
  obtain ⟨_, -, -, -, hMark⟩ := h
  exact fun _ _ _ => hMark

theorem Conn.On.marked_of_read (h : e.On ctx 0 mark) : e.Marked := by
  obtain ⟨sock, hSock, -, hRead, -⟩ := h
  intro sock' hSock' hUnread
  cases hSock.symm.trans hSock'
  rw [hRead] at hUnread
  cases hUnread

theorem Conn.On.quiet (h : e.On ctx 0 false) : e.Quiet := by
  obtain ⟨sock, hSock, -, hRead, hMark⟩ := h
  intro sock' hSock'
  cases hSock.symm.trans hSock'
  exact ⟨hRead, hMark⟩

theorem Conn.Marked.quiet (h : e.Marked) (hMark : e.conn ≠ none → e.inConversation = false) :
    e.Quiet := by
  intro sock hSock
  have hFlag : e.inConversation = false := hMark (by simp [hSock])
  refine ⟨Nat.eq_zero_of_not_pos fun hUnread => ?_, hFlag⟩
  rw [h sock hSock hUnread] at hFlag
  cases hFlag

theorem Conn.quiet_of_closed (h : e.conn = none) : e.Quiet := fun _ hSock => by
  rw [h] at hSock
  cases hSock

theorem connSweep_quiet (h : e.Marked) : (connSweep e).Quiet := by
  unfold connSweep
  split
  · rename_i hClosed
    exact Conn.quiet_of_closed hClosed
  · split
    · exact Conn.quiet_of_closed rfl
    · rename_i hKept
      simp only [Bool.or_eq_true, not_or, Bool.not_eq_true] at hKept
      exact h.quiet fun _ => hKept.1

theorem connSubxact_quiet (mySubid : Nat) (h : e.Marked) : (connSubxact mySubid e).Quiet := by
  have hGiven : ∀ e' : Conn, e'.Quiet → (connGiveBack mySubid e').Quiet := by
    intro e' h'
    unfold connGiveBack
    split
    · exact h'
    · exact h'
  refine hGiven _ ?_
  unfold connQuiet
  split
  · exact Conn.quiet_of_closed rfl
  · rename_i hKept
    exact h.quiet fun hOpen => Bool.not_eq_true _ ▸ fun hMark => hKept ⟨hOpen, hMark⟩

end Entries

/-! ## Programs that talk -/

/-- From an entry like `P` the program ends with one like `Q`, or raises and leaves one whose
unread replies are marked. -/
def Talks {α : Type} (k : ConnKey) (P : Conn → Prop) (x : Proc α) (Q : α → Conn → Prop) : Prop :=
  ∀ w : World, P (w.pool k) → wp x (fun a w' => Q a (w'.pool k)) (fun w' => (w'.pool k).Marked) w

section Talking

variable {α β : Type} {k : ConnKey} {P : Conn → Prop} {x : Proc α} {Q : α → Conn → Prop}
  {f : α → Proc β} {R : β → Conn → Prop} {ctx n : Nat} {mark : Bool}

theorem Talks.bind (hx : Talks k P x Q) (hf : ∀ a, Talks k (Q a) (f a) R) : Talks k P (x >>= f) R :=
  fun w hP => wp_bind.mpr (wp_mono (hx w hP) (fun a w' hQ => hf a w' hQ) fun _ => id)

theorem Talks.of_pre (hx : Talks k P x Q) {P' : Conn → Prop} (hP : ∀ e, P' e → P e) :
    Talks k P' x Q := fun w h => hx w (hP _ h)

theorem Talks.pure (a : α) (h : ∀ e, P e → Q a e) : Talks k P (Pure.pure a : Proc α) Q :=
  fun w => h (w.pool k)

theorem talks_modifyConn {g : Conn → Conn} {Q : Unit → Conn → Prop} (h : ∀ e, P e → Q () (g e)) :
    Talks k P (modifyConn k g) Q := by
  intro w hP
  rw [wp_modifyConn, World.setConn_self]
  exact h _ hP

theorem talks_readConn {Q : Conn → Conn → Prop} (h : ∀ e, P e → Q e e) :
    Talks k P (readConn k) Q := fun _ hP => wp_readConn.mpr (h _ hP)

theorem talks_raiseIf {c : Bool} {e : PoolError} (hMarked : ∀ e, P e → e.Marked) :
    Talks k P (raiseIf c e) fun _ => P := by
  intro w hP
  rw [wp_raiseIf]
  exact ⟨fun _ => hMarked _ hP, fun _ => hP⟩

theorem talks_await (hMarked : ∀ e, P e → e.Marked) : Talks k P await fun _ => P :=
  fun _ hP => wp_await (fun _ _ _ => hP) fun _ _ => hMarked _ hP

/-! ### One command -/

variable {w : World} {E : World → Prop}

theorem wp_socketAt_open {Q : Socket → World → Prop} {sock : Socket}
    (hSock : (w.pool k).conn = some sock) (hQ : Q sock w) :
    wp (socketAt k (some sock.link.id)) Q E w := by
  unfold socketAt
  rw [wp_bind, wp_readConn, hSock]
  exact wp_ite.mpr ⟨fun _ => hQ, fun hOther => absurd rfl hOther⟩

theorem wp_appendCommand {Q : Unit → World → Prop} {known : Option Nat} (hKnown : known = some ctx)
    (h : (w.pool k).On ctx n mark)
    (hQ : ∀ a w', w.waits = .answers a :: w'.waits → (w'.pool k).On ctx (n + 1) mark → Q () w')
    (hE : ∀ w', ¬w.Answered → (w'.pool k).On ctx n mark → E w') :
    wp (appendCommand k known) Q E w := by
  subst hKnown
  unfold appendCommand
  rw [wp_bind]
  refine wp_await (fun a rest hWaits => ?_) fun rest hFails => hE _ hFails h
  obtain ⟨sock, hSock, rfl, rfl, hMark⟩ := h
  rw [wp_bind]
  refine wp_socketAt_open hSock (hQ a _ hWaits ⟨{ sock with unread := sock.unread + 1 }, ?_⟩)
  simp [World.hand, hMark]

theorem wp_ioGetReply {Q : Answer → World → Prop} {known : Option Nat} (hKnown : known = some ctx)
    (h : (w.pool k).On ctx (n + 1) mark)
    (hQ : ∀ a w', w.waits = .answers a :: w'.waits → (w'.pool k).On ctx n mark → Q a w')
    (hE : ∀ w', ¬w.Answered → (w'.pool k).On ctx (n + 1) mark → E w') :
    wp (ioGetReply k known) Q E w := by
  subst hKnown
  unfold ioGetReply
  rw [wp_bind]
  refine wp_await (fun a rest hWaits => ?_) fun rest hFails => hE _ hFails h
  obtain ⟨sock, hSock, rfl, hUnread, hMark⟩ := h
  rw [wp_bind]
  refine wp_socketAt_open hSock ?_
  rw [wp_bind, wp_modifyConn, wp_pure]
  refine hQ a _ hWaits ⟨{ sock with unread := sock.unread - 1 }, ?_⟩
  simp [hUnread, hMark]

/-- A round trip reads what it asked, unless one of its three waits fails. -/
theorem wp_roundTrip (h : (w.pool k).On ctx n mark) :
    wp (roundTrip k) (fun _ w' => (w'.pool k).On ctx n mark)
      (fun w' => (∃ n', (w'.pool k).On ctx n' mark) ∧
        ¬∃ a b c rest, w.waits = .answers a :: .answers b :: .answers c :: rest) w := by
  unfold roundTrip
  rw [wp_bind, wp_readConn, wp_bind]
  have hKnown : (w.pool k).conn.map (fun sock => sock.link.id) = some ctx := by
    obtain ⟨sock, hSock, hCtx, -⟩ := h
    rw [hSock, Option.map_some, hCtx]
  refine wp_appendCommand hKnown h (fun a w₁ h₁ hOn₁ => ?_) fun w' hFails hOn => ⟨⟨n, hOn⟩, ?_⟩
  · rw [wp_bind, ioFlush, wp_bind]
    refine wp_await (fun b rest h₂ => ?_) fun rest hFails => ⟨⟨n + 1, hOn₁⟩, ?_⟩
    · rw [wp_pure]
      refine wp_ioGetReply hKnown hOn₁ (fun c w₃ h₃ hOn₃ => hOn₃) fun w' hFails hOn => ⟨⟨n + 1, hOn⟩, ?_⟩
      rintro ⟨a', b', c', rest', hAll⟩
      rw [h₁, h₂] at hAll
      injection hAll with _ hAll
      injection hAll with _ hAll
      exact hFails ⟨c', rest', hAll⟩
    · rintro ⟨a', b', c', rest', hAll⟩
      rw [h₁] at hAll
      injection hAll with _ hAll
      exact hFails ⟨b', _, hAll⟩
  · rintro ⟨a', b', c', rest', hAll⟩
    exact hFails ⟨a', _, hAll⟩

theorem talks_roundTrip : Talks k (Conn.On ctx n true) (roundTrip k) fun _ => Conn.On ctx n true := by
  intro w hOn
  refine wp_mono (wp_roundTrip hOn) (fun _ _ => id) ?_
  rintro w' ⟨⟨n', hOn'⟩, -⟩
  exact hOn'.marked

/-! ### Opening and asking -/

theorem Conn.On.mark_as {e : Conn} (h : e.On ctx n mark) (mark' : Bool) :
    Conn.On ctx n mark' { e with inConversation := mark' } := by
  obtain ⟨sock, hSock, hId, hUnread, -⟩ := h
  exact ⟨sock, hSock, hId, hUnread, rfl⟩

theorem talks_mark (mark' : Bool) : Talks k (Conn.On ctx n mark)
    (modifyConn k fun e => { e with inConversation := mark' }) fun _ => Conn.On ctx n mark' :=
  talks_modifyConn fun _ h => h.mark_as mark'

/-- A command puts the mark back as it found it. -/
theorem talks_connCommand (what : String) :
    Talks k (Conn.On ctx 0 mark) (connCommand k what) fun _ => Conn.On ctx 0 mark := by
  intro w hOn
  unfold connCommand
  rw [wp_bind, wp_readConn]
  have hMark : (w.pool k).inConversation = mark := by
    obtain ⟨_, -, -, -, hMark⟩ := hOn
    exact hMark
  rw [hMark]
  refine Talks.bind (Q := fun _ => Conn.On ctx 0 true) (talks_mark true) (fun _ => ?_) w hOn
  refine talks_roundTrip.bind fun a => ?_
  refine (talks_raiseIf fun _ h => h.marked).bind fun _ => ?_
  exact (talks_mark mark).bind fun _ => .pure a fun _ h => h

theorem talks_set {g : Conn → Conn} (hConn : ∀ e, (g e).conn = e.conn)
    (hMark : ∀ e, (g e).inConversation = e.inConversation) :
    Talks k (Conn.On ctx n mark) (modifyConn k g) fun _ => Conn.On ctx n mark := by
  refine talks_modifyConn fun e h => ?_
  obtain ⟨sock, hSock, hId, hUnread, hFlag⟩ := h
  exact ⟨sock, (hConn e).trans hSock, hId, hUnread, (hMark e).trans hFlag⟩

theorem talks_connForceHandshake :
    Talks k (Conn.On ctx 0 true) (connForceHandshake k) fun _ => Conn.On ctx 0 true := by
  refine (talks_readConn (Q := fun _ => Conn.On ctx 0 true) fun _ h => h).bind fun e => ?_
  split
  · refine (talks_await fun _ h => h.marked).bind fun _ => ?_
    exact (talks_connCommand _).bind fun _ => .pure () fun _ h => h
  · exact .pure () fun _ h => h

theorem talks_connAuthenticate (user : UserOptions) :
    Talks k (Conn.On ctx 0 true) (connAuthenticate k user) fun _ => Conn.On ctx 0 true := by
  unfold connAuthenticate
  split
  · exact .pure () fun _ h => h
  · exact (talks_connCommand _).bind fun _ => .pure () fun _ h => h

theorem talks_connNegotiateResp3 :
    Talks k (Conn.On ctx 0 true) (connNegotiateResp3 k) fun _ => Conn.On ctx 0 true := by
  refine talks_roundTrip.bind fun a => ?_
  refine (talks_raiseIf fun _ h => h.marked).bind fun _ => ?_
  exact talks_set (fun _ => rfl) fun _ => rfl

theorem talks_connProbeScript :
    Talks k (Conn.On ctx 0 true) (connProbeScript k) fun _ => Conn.On ctx 0 true := by
  refine talks_roundTrip.bind fun a => ?_
  exact talks_set (fun _ => rfl) fun _ => rfl

/-- A connection that was opened is quiet; one that failed on the way has the mark. -/
theorem talks_connOpen (user : UserOptions) :
    Talks k (fun e => e.conn = none) (connOpen k user) fun _ e => ∃ ctx, e.On ctx 0 false := by
  refine (talks_await fun _ hClosed => (Conn.quiet_of_closed hClosed).marked).bind fun _ => ?_
  intro w _
  rw [wp_bind, wp_modify]
  have hOpened : ((w.open k user).pool k).On w.opens 0 true := by
    refine ⟨⟨⟨w.opens, (w.pool k).target, user⟩, 0⟩, ?_⟩
    simp [World.open, Conn.opened]
  have hSetup : Talks k (Conn.On w.opens 0 true) (do
      connForceHandshake k
      connAuthenticate k user
      connNegotiateResp3 k
      connProbeScript k
      modifyConn k fun e => { e with inConversation := false }) fun _ => Conn.On w.opens 0 false :=
    talks_connForceHandshake.bind fun _ => (talks_connAuthenticate user).bind fun _ =>
      talks_connNegotiateResp3.bind fun _ => talks_connProbeScript.bind fun _ => talks_mark false
  exact wp_mono (hSetup _ hOpened) (fun _ _ h => ⟨_, h⟩) fun _ h => h

theorem talks_connSelectDb (database : Int) :
    Talks k (Conn.On ctx 0 false) (connSelectDb k database) fun _ => Conn.On ctx 0 false := by
  have hSet : ∀ d : Int, Talks k (Conn.On ctx 0 false)
      (modifyConn k fun e => { e with database := d }) fun _ => Conn.On ctx 0 false :=
    fun d => talks_set (fun _ => rfl) fun _ => rfl
  refine (talks_readConn (Q := fun _ => Conn.On ctx 0 false) fun _ h => h).bind fun e => ?_
  split
  · exact .pure () fun _ h => h
  · split
    · exact (talks_raiseIf fun _ h => h.marked_of_read).bind fun _ => hSet 0
    · exact (hSet _).bind fun _ => (talks_connCommand _).bind fun _ => hSet database

/-- The probe is safe where it is not interrupted. -/
theorem wp_ttlRequire (hOn : (w.pool k).On ctx 0 false)
    (hAnswered : (w.pool k).fieldTtl = .unknown →
      ∃ a b c rest, w.waits = .answers a :: .answers b :: .answers c :: rest) :
    wp (ttlRequire k) (fun _ w' => (w'.pool k).On ctx 0 false) (fun w' => (w'.pool k).Marked) w := by
  unfold ttlRequire
  rw [wp_bind]
  have hAsk : wp (ttlAsk k) (fun _ w' => (w'.pool k).On ctx 0 false)
      (fun w' => (w'.pool k).Marked) w := by
    unfold ttlAsk
    rw [wp_bind, wp_readConn, wp_ite]
    refine ⟨fun hUnknown => ?_, fun _ => hOn⟩
    unfold ttlProbe
    rw [wp_bind]
    refine wp_mono (wp_roundTrip hOn) (fun a w' hOn' => ?_) fun w' hFails => ?_
    · rw [wp_modifyConn, World.setConn_self]
      exact hOn'
    · exact absurd (hAnswered hUnknown) hFails.2
  refine wp_mono hAsk (fun _ w' hOn' => ?_) fun _ h => h
  rw [wp_bind, wp_readConn]
  exact talks_raiseIf (fun _ h => h.marked_of_read) w' hOn'

/-! ### Pipelines -/

/-- A batch on this connection: its pending commands are what is unread. -/
def Batch.Reads (k : ConnKey) (b : Batch) (e : Conn) : Prop :=
  b.key = k ∧ ∃ ctx, b.ctx = some ctx ∧ e.On ctx b.pending true

theorem Batch.Reads.marked {b : Batch} {e : Conn} (h : b.Reads k e) : e.Marked := by
  obtain ⟨-, _, -, hOn⟩ := h
  exact hOn.marked

theorem talks_batchBegin : Talks k (Conn.On ctx 0 mark) (batchBegin k)
    fun b e => b.Reads k e ∧ b.pending = 0 := by
  intro w hOn
  unfold batchBegin
  rw [wp_bind, wp_readConn, wp_bind, wp_modifyConn, wp_pure, World.setConn_self]
  have hMarked := hOn.mark_as true
  obtain ⟨sock, hSock, hCtx, -⟩ := hOn
  refine ⟨⟨rfl, ctx, ?_, hMarked⟩, rfl⟩
  rw [hSock, Option.map_some, hCtx]

theorem talks_batchFlush (b : Batch) : Talks k (b.Reads k) (batchFlush b)
    fun b' e => b'.Reads k e ∧ b'.queued = 0 ∧ b'.pending = b.pending := by
  unfold batchFlush
  split
  · rename_i hQueued
    exact .pure b fun _ h => ⟨h, hQueued, rfl⟩
  · rintro w ⟨hKey, ctx, hCtx, hOn⟩
    have hPending : ({ b with outstanding := b.outstanding + b.queued, queued := 0 } : Batch).pending =
        b.pending := by
      simp only [Batch.pending]
      omega
    rw [wp_bind]
    refine wp_ioFlush (fun rest => ?_) fun rest => hOn.marked
    rw [wp_pure]
    refine ⟨⟨hKey, ctx, hCtx, ?_⟩, rfl, hPending⟩
    rw [hPending]
    exact hOn

theorem talks_batchAdd (b : Batch) : Talks k (b.Reads k) (batchAdd b) fun b' e => b'.Reads k e := by
  rintro w ⟨rfl, ctx, hCtx, hOn⟩
  unfold batchAdd
  rw [wp_bind]
  refine wp_appendCommand hCtx hOn (fun a w' _ hOn' => ?_) fun w' _ hOn' => hOn'.marked
  have hReads : ({ b with queued := b.queued + 1 } : Batch).Reads b.key (w'.pool b.key) := by
    refine ⟨rfl, ctx, hCtx, ?_⟩
    rw [show ({ b with queued := b.queued + 1 } : Batch).pending = b.pending + 1 by
      simp only [Batch.pending]
      omega]
    exact hOn'
  refine wp_ite.mpr ⟨fun _ => ?_, fun _ => hReads⟩
  exact wp_mono (talks_batchFlush _ w' hReads) (fun _ _ h => h.1) fun _ h => h

theorem talks_batchNext (b : Batch) : Talks k (b.Reads k) (batchNext b)
    fun r e => r.1.Reads k e ∧ r.1.pending = b.pending - 1 := by
  refine (talks_batchFlush b).bind fun b' => ?_
  rintro w ⟨⟨rfl, ctx, hCtx, hOn⟩, hQueued, hPending⟩
  refine wp_ite.mpr ⟨fun hNone => ?_, fun hSome => ?_⟩
  · refine ⟨⟨rfl, ctx, hCtx, hOn⟩, ?_⟩
    simp only [Batch.pending] at hPending ⊢
    omega
  · rw [wp_bind]
    have hOwed : b'.pending = (b'.outstanding - 1) + 1 := by
      simp only [Batch.pending]
      omega
    rw [hOwed] at hOn
    refine wp_ioGetReply hCtx hOn (fun a w' _ hOn' => ?_) fun w' _ hOn' => hOn'.marked
    have hLess : ({ b' with outstanding := b'.outstanding - 1 } : Batch).pending =
        b'.outstanding - 1 := by
      simp only [Batch.pending]
      omega
    refine ⟨⟨rfl, ctx, hCtx, ?_⟩, ?_⟩
    · rw [hLess]
      exact hOn'
    · rw [hLess]
      omega

/-- By induction on what is pending: one reply at a time. -/
theorem talks_batchDrain (m : Nat) (b : Batch) : Talks k (fun e => b.Reads k e ∧ b.pending = m)
    (batchDrain m b) fun b' e => b'.Reads k e ∧ b'.pending = 0 := by
  induction m generalizing b with
  | zero => exact .pure b fun _ h => h
  | succ m ih =>
    rintro w ⟨hReads, hPending⟩
    have hRest (r : Batch × Option Answer) : Talks k (fun e => r.1.Reads k e ∧ r.1.pending = b.pending - 1)
        (batchDrain m r.1) fun b' e => b'.Reads k e ∧ b'.pending = 0 := by
      refine (ih r.1).of_pre fun e h => ⟨h.1, h.2.trans ?_⟩
      rw [hPending]
      rfl
    exact ((talks_batchNext b).bind hRest) w hReads

theorem talks_batchEnd (b : Batch) : Talks k (b.Reads k) (batchEnd b)
    fun _ e => ∃ ctx, e.On ctx 0 false := by
  refine ((talks_batchDrain b.pending b).of_pre fun e h => ⟨h, rfl⟩).bind fun b' => ?_
  rintro w' ⟨⟨rfl, ctx, -, hOn⟩, hNone⟩
  rw [hNone] at hOn
  rw [wp_modifyConn, World.setConn_self]
  exact ⟨ctx, hOn.mark_as false⟩

theorem talks_batchEnd_idle (b : Batch) (hNone : b.pending = 0) :
    Talks b.key (Conn.On ctx 0 mark) (batchEnd b) fun _ => Conn.On ctx 0 false := by
  unfold batchEnd
  rw [hNone]
  exact (Talks.pure b fun _ h => h).bind fun _ => talks_mark false

theorem talks_clusterLoad : Talks k (Conn.On ctx 0 mark) (clusterLoad k)
    fun _ e => ∃ ctx, e.On ctx 0 false := by
  refine talks_batchBegin.bind fun b => ?_
  refine ((talks_batchAdd b).of_pre fun _ h => h.1).bind fun b' => ?_
  refine (talks_batchNext b').bind fun r => ?_
  split
  · refine ((talks_batchEnd r.1).of_pre fun _ h => h.1).bind fun _ => ?_
    exact .pure _ fun _ h => h
  · exact fun w h => h.1.marked

theorem talks_clusterMap : Talks k (Conn.On ctx 0 mark) (clusterMap k)
    fun _ e => ∃ ctx mark', e.On ctx 0 mark' ∧ (mark = false → mark' = false) := by
  intro w hOn
  unfold clusterMap
  rw [wp_bind, wp_get]
  split
  · exact ⟨ctx, mark, hOn, id⟩
  · rw [wp_bind]
    refine wp_mono (talks_clusterLoad w hOn) ?_ fun _ h => h
    rintro map w' ⟨ctx', hOn'⟩
    exact ⟨ctx', false, hOn', fun _ => rfl⟩

end Talking

/-! ## Callers and their replies -/

/-- The entry is as its holder left it. -/
def Hold.Fits : Hold → Conn → Prop
  | .taken _, e => ∃ ctx, e.On ctx 0 false
  | .reading b, e => b.Reads b.key e
  | .leaving b, e => b.pending = 0 ∧ ∃ ctx mark, e.On ctx 0 mark

/-- What the holder has still to read. -/
def Hold.pending : Hold → Nat
  | .reading b => b.pending
  | _ => 0

theorem Hold.Fits.marked {h : Hold} {e : Conn} (hFits : h.Fits e) : e.Marked := by
  cases h with
  | taken k =>
    obtain ⟨_, hOn⟩ := hFits
    exact hOn.marked_of_read
  | reading b => exact Batch.Reads.marked hFits
  | leaving b =>
    obtain ⟨-, _, _, hOn⟩ := hFits
    exact hOn.marked_of_read

theorem Hold.Fits.unread {h : Hold} {e : Conn} (hFits : h.Fits e) {sock : Socket}
    (hSock : e.conn = some sock) : sock.unread = h.pending := by
  have hRead : ∀ {ctx n : Nat} {mark : Bool}, e.On ctx n mark → sock.unread = n := by
    rintro ctx n mark ⟨sock', hSock', -, hUnread, -⟩
    cases hSock.symm.trans hSock'
    exact hUnread
  cases h with
  | taken k =>
    obtain ⟨_, hOn⟩ := hFits
    exact hRead hOn
  | reading b =>
    obtain ⟨-, _, -, hOn⟩ := hFits
    exact hRead hOn
  | leaving b =>
    obtain ⟨-, _, _, hOn⟩ := hFits
    exact hRead hOn

/-- What a call leaves behind on the connection it was made on. -/
def Gain.Leaves (g : Gain) (e : Conn) : Prop :=
  match g.hold with
  | some h => h.Fits e
  | none => e.Quiet

theorem Gain.Leaves.marked {g : Gain} {e : Conn} (h : g.Leaves e) : e.Marked := by
  unfold Gain.Leaves at h
  split at h
  · exact h.marked
  · exact h.marked

section Calls

variable {call : Call} {h : Hold} {prog : Proc Gain} {w : World}

theorem talks_of_call {α : Type} {k : ConnKey} {x : Proc α} {P : Conn → Prop} {Q : α → Conn → Prop}
    {gain : α → Gain} (hx : Talks k P x Q) (hGain : ∀ a e, Q a e → (gain a).Leaves e)
    (hP : P (w.pool k)) :
    wp (gain <$> x) (fun g w' => g.Leaves (w'.pool k)) (fun w' => (w'.pool k).Marked) w :=
  wp_map.mpr (wp_mono (hx w hP) (fun a _ hQ => hGain a _ hQ) fun _ hMarked => hMarked)

/-- Each call leaves the connection as its holder has it, or marked. -/
theorem Call.on_leaves (hProg : call.on h = some prog) (hFits : h.Fits (w.pool h.key))
    (hProbe : call = .requireTtl → (w.pool h.key).fieldTtl = .unknown →
      ∃ a b c rest, w.waits = .answers a :: .answers b :: .answers c :: rest) :
    wp prog (fun g w' => g.Leaves (w'.pool h.key)) (fun w' => (w'.pool h.key).Marked) w := by
  unfold Call.on at hProg
  split at hProg
  · cases hProg
    obtain ⟨ctx, hOn⟩ := hFits
    exact talks_of_call (talks_connSelectDb _) (fun _ _ h => ⟨ctx, h⟩) hOn
  · cases hProg
    obtain ⟨ctx, hOn⟩ := hFits
    rw [wp_map]
    exact wp_mono (wp_ttlRequire hOn (hProbe rfl)) (fun _ _ h => ⟨ctx, h⟩) fun _ h => h
  · cases hProg
    obtain ⟨ctx, hOn⟩ := hFits
    refine talks_of_call talks_batchBegin (fun b e h => ?_) hOn
    exact ⟨rfl, h.1.2⟩
  · cases hProg
    obtain ⟨ctx, hOn⟩ := hFits
    refine talks_of_call talks_clusterMap (fun map e h => ?_) hOn
    obtain ⟨ctx', mark, hOn', hMark⟩ := h
    exact ⟨ctx', hMark rfl ▸ hOn'⟩
  · cases hProg
    obtain ⟨ctx, hOn⟩ := hFits
    exact talks_of_call (talks_set (g := connRelease) (fun _ => rfl) fun _ => rfl)
      (fun _ _ h => h.quiet) hOn
  · cases hProg
    exact talks_of_call (talks_batchAdd _) (fun b e h => ⟨rfl, h.2⟩) hFits
  · cases hProg
    exact talks_of_call (talks_batchNext _) (fun r e h => ⟨rfl, h.1.2⟩) hFits
  · cases hProg
    exact talks_of_call (talks_batchEnd _) (fun _ _ h => h) hFits
  · split at hProg
    · rename_i b hNone
      cases hProg
      obtain ⟨-, ctx, -, hOn⟩ := hFits
      rw [hNone] at hOn
      refine talks_of_call talks_clusterMap (fun map e h => ?_) hOn
      obtain ⟨ctx', mark, hOn', -⟩ := h
      exact ⟨hNone, ctx', mark, hOn'⟩
    · cases hProg
  · cases hProg
    obtain ⟨hNone, ctx, mark, hOn⟩ := hFits
    exact talks_of_call (talks_batchEnd_idle _ hNone) (fun _ _ h => ⟨ctx, h⟩) hOn
  · cases hProg

variable [SysCache] {server : ForeignServer} {user : UserMapping} {clusterAware : Bool}
  {node : Option Node}

theorem Picked.quiet {k : ConnKey} {e : Conn} (h : Picked server user node w k e)
    (hQuiet : (w.pool k).Quiet) : e.Quiet := by
  rcases h.socket with ⟨hClosed, -⟩ | ⟨-, hConn, hMark, -⟩
  · exact Conn.quiet_of_closed hClosed
  · intro sock hSock
    rw [hMark]
    exact hQuiet sock (hConn ▸ hSock)

theorem acquire_leaves (hFree : ∀ k, (w.pool k).leased = false → (w.pool k).Quiet) :
    wp ((fun k => Gain.of (.taken k)) <$> getConnectionInternal server user clusterAware node)
      (fun g w' => ∀ h, g.hold = some h → h.Fits (w'.pool h.key))
      (fun w' => ∀ k e, picks server user node w = some (k, e) → (w'.pool k).Marked) w := by
  have hQuiet : ∀ k e, picks server user node w = some (k, e) → e.Quiet := by
    intro k e hPicks
    have hPicked := picked_of_picks hPicks
    exact hPicked.quiet (hFree k hPicked.free)
  have hSame : ∀ {k k' : ConnKey} {e e' : Conn}, picks server user node w = some (k, e) →
      picks server user node w = some (k', e') → k' = k := by
    intro k k' e e' h h'
    exact (Prod.mk.inj (Option.some.inj (h'.symm.trans h))).1
  rw [wp_map]
  refine wp_getConnectionInternal ?_ ?_ ?_ ?_
  · intro hNone k e hPicks
    cases hNone.symm.trans hPicks
  · intro k e hPicks _ k' e' hPicks'
    cases hSame hPicks hPicks'
    rw [w.setConn_self]
    exact (hQuiet k e hPicks).marked
  · intro k e hPicks _ hClosed
    refine wp_mono (talks_connOpen user.options (w.setConn k e) ?_) (fun _ w' hOn => ?_)
      fun w' hMarked => ?_
    · rw [w.setConn_self]
      exact hClosed
    · rintro h hHold
      cases hHold
      exact hOn
    · intro k' e' hPicks'
      cases hSame hPicks hPicks'
      exact hMarked
  · intro k e hPicks _ hOpen h hHold
    cases hHold
    obtain ⟨sock, hSock⟩ := Option.ne_none_iff_exists'.mp hOpen
    obtain ⟨hRead, hMark⟩ := hQuiet k e hPicks sock hSock
    refine ⟨sock.link.id, sock, ?_, rfl, hRead, ?_⟩
    · exact (congrArg Conn.conn (w.setConn_self k e)).trans hSock
    · exact (congrArg Conn.inConversation (w.setConn_self k e)).trans hMark

end Calls

/-! ## Runs -/

section Runs

variable [SysCache]

/-- No probe for the expiry of fields is interrupted, no subtransaction is rolled back over a
connection that a caller around it is using, and nothing is in conversation when a
transaction is prepared. -/
def ReplySafe (s : Session) : Event → Prop
  | .call id .requireTtl waits => ∀ c h, s.callers id = some c → c.hold = some h →
      (s.world.pool h.key).fieldTtl = .unknown →
        ∃ a b c rest, waits = .answers a :: .answers b :: .answers c :: rest
  | .abortSub => s.AbortSafe
  | .endTop .prepare => ∀ k, (s.world.pool k).conn ≠ none → (s.world.pool k).inConversation = false
  | _ => True

/-- What is unread is marked, what is free is quiet, and what is held is as its holder left
it. -/
structure Session.Paired (s : Session) : Prop where
  marked : ∀ k, (s.world.pool k).Marked
  free : ∀ k, (s.world.pool k).leased = false → (s.world.pool k).Quiet
  held : ∀ id c h, s.callers id = some c → c.hold = some h → h.Fits (s.world.pool h.key)

variable {s t : Session}

variable (hs : s.Paired)

include hs

omit [SysCache] in
theorem Session.Paired.of_callers (hPool : t.world.pool = s.world.pool)
    (hCallers : ∀ id c h, t.callers id = some c → c.hold = some h →
      ∃ c', s.callers id = some c' ∧ c'.hold = some h) : t.Paired := by
  refine ⟨hPool ▸ hs.marked, hPool ▸ hs.free, fun id c h hCaller hHold => ?_⟩
  obtain ⟨c', hCaller', hHold'⟩ := hCallers id c h hCaller hHold
  exact hPool ▸ hs.held id c' h hCaller' hHold'

omit [SysCache] in
theorem Session.Paired.settle {id : Nat} {c : Caller} {w : World} {g : Option Gain} {k : ConnKey}
    (hTouches : s.Touches id w g k) (hMarked : (w.pool k).Marked)
    (hFree : (w.pool k).leased = false → (w.pool k).Quiet)
    (hGain : ∀ g' h', g = some g' → g'.hold = some h' → h'.Fits (w.pool k)) :
    (s.settle id c w g).Paired := by
  refine ⟨fun k' => ?_, fun k' hNot => ?_, fun id' c' h' hCaller hHold => ?_⟩
  · by_cases hk : k' = k
    · exact hk ▸ hMarked
    · exact (hTouches.others k' hk).symm ▸ hs.marked k'
  · by_cases hk : k' = k
    · subst hk
      exact hFree hNot
    · have hSame := hTouches.others k' hk
      change (w.pool k').leased = false at hNot
      rw [hSame] at hNot
      exact hSame.symm ▸ hs.free k' hNot
  · by_cases hid : id' = id
    · subst hid
      rw [s.settle_callers_self] at hCaller
      obtain ⟨g', rfl, rfl⟩ := Option.map_eq_some_iff.mp hCaller
      exact (hTouches.gained g' h' rfl hHold).1.symm ▸ hGain g' h' rfl hHold
    · rw [s.settle_callers_of_ne c w g hid] at hCaller
      have hSame := hTouches.others h'.key (hTouches.alone id' c' h' hid hCaller hHold)
      exact hSame.symm ▸ hs.held id' c' h' hCaller hHold

theorem Session.Paired.call (hApart : s.Apart) {id : Nat} {call : Call} {waits : List Wait}
    {c : Caller} {w : World} {g : Option Gain} (hSafe : ReplySafe s (.call id call waits))
    (hCalled : Session.Called s id call waits c w g) : (s.settle id c w g).Paired := by
  rcases hCalled.cases with ⟨h, hHold, hEffect⟩ |
    ⟨server, user, aware, node, rfl, hHold, -, -, hTaking⟩
  · have hLeased := hApart.leased id c h hCalled.caller hHold
    have hEnds := hCalled.ends_on hHold fun prog hProg =>
      Call.on_leaves (w := { s.world with waits }) hProg (hs.held id c h hCalled.caller hHold) ?_
    · refine hs.settle (hApart.touches hCalled.caller hHold hEffect) ?_ (fun hNot => ?_) ?_
      · cases g with
        | none => exact hEnds
        | some g => exact Gain.Leaves.marked hEnds
      · -- Only a connection that was given back is free afterwards.
        cases g with
        | none =>
          have hKept := congrArg Held.leased hEffect.fails
          exact absurd (hNot.symm.trans (hKept.trans hLeased)) nofun
        | some g =>
          change g.Leaves (w.pool h.key) at hEnds
          unfold Gain.Leaves at hEnds
          split at hEnds
          · rename_i h' hHold'
            have hKept := congrArg Held.leased (hEffect.keeps hHold').2
            exact absurd (hNot.symm.trans (hKept.trans hLeased)) nofun
          · exact hEnds
      · rintro g' h' rfl hHold'
        change g'.Leaves (w.pool h.key) at hEnds
        rwa [Gain.Leaves, hHold'] at hEnds
    · rintro rfl hUnknown
      exact hSafe c h hCalled.caller hHold hUnknown
  · have hEnds := hCalled.ends_afresh hHold (acquire_leaves (w := { s.world with waits }) hs.free)
    rcases hTaking.picked with ⟨rfl, rfl⟩ | ⟨k, e, hPicks, -, hOthers, hLeased, -, hGain⟩
    · refine hs.of_callers rfl fun id' c' h' hCaller' hHold' => ?_
      exact ⟨c', Session.settle_none_callers hCaller', hHold'⟩
    · refine hs.settle (hApart.touches_picked id hPicks hOthers hLeased hGain) ?_ ?_ ?_
      · cases g with
        | none => exact hEnds k e hPicks
        | some g =>
          obtain rfl := hGain g rfl
          exact (hEnds (.taken k) rfl).marked
      · exact fun hNot => absurd (hNot.symm.trans hLeased) nofun
      · rintro g' h' rfl hHold'
        cases hGain g' rfl
        cases hHold'
        exact hEnds (.taken k) rfl

omit [SysCache] in
theorem Session.Paired.inval (cacheid : CacheId) (hashvalue : Nat) :
    (s.inval cacheid hashvalue).Paired := by
  refine ⟨fun k => ?_, fun k hNot => ?_, fun id c h hCaller hHold => ?_⟩
  · obtain ⟨_, hEq⟩ := connInvalCallback_eq cacheid hashvalue (s.world.pool k)
    change (connInvalCallback cacheid hashvalue (s.world.pool k)).Marked
    rw [hEq]
    exact hs.marked k
  · obtain ⟨_, hEq⟩ := connInvalCallback_eq cacheid hashvalue (s.world.pool k)
    change (connInvalCallback cacheid hashvalue (s.world.pool k)).leased = false at hNot
    change (connInvalCallback cacheid hashvalue (s.world.pool k)).Quiet
    rw [hEq] at hNot ⊢
    exact hs.free k hNot
  · obtain ⟨_, hEq⟩ := connInvalCallback_eq cacheid hashvalue (s.world.pool h.key)
    change h.Fits (connInvalCallback cacheid hashvalue (s.world.pool h.key))
    rw [hEq]
    have hHeld := hs.held id c h hCaller hHold
    cases h with
    | taken k => exact hHeld
    | reading b => exact hHeld
    | leaving b => exact hHeld

omit [SysCache] in
theorem Session.Paired.abortSub (hSafe : s.AbortSafe) (parent : Nat) (subs : List Nat) :
    (s.abortSub parent subs).Paired := by
  have hQuiet : ∀ k, ((s.abortSub parent subs).world.pool k).Quiet :=
    fun k => connSubxact_quiet s.world.subid (hs.marked k)
  refine ⟨fun k => (hQuiet k).marked, fun k _ => hQuiet k, fun id c h hCaller hHold => ?_⟩
  obtain ⟨hBefore, hOuter⟩ := Session.abortSub_callers hCaller
  have hSame := (connSubxact_eq_self_iff _ _).mpr (hSafe id c h hBefore hOuter hHold)
  change h.Fits (connSubxact s.world.subid (s.world.pool h.key))
  rw [hSame]
  exact hs.held id c h hBefore hHold

omit [SysCache] in
theorem Session.Paired.quiet_endTop {event : XactEvent} (hSafe : ReplySafe s (.endTop event))
    (k : ConnKey) :
    ((s.endTop event).world.pool k).Quiet := by
  cases event with
  | prepare => exact (hs.marked k).quiet (hSafe k)
  | commit => exact connSweep_quiet (hs.marked k)
  | abort => exact connSweep_quiet (hs.marked k)

theorem Session.Paired.step {event : Event} (hApart : s.Apart) (hSafe : ReplySafe s event)
    (hStep : Session.step event s = .ok t) : t.Paired := by
  cases Session.moves_of_step hStep with
  | enter id serverid soft hNew =>
    refine hs.of_callers rfl fun id' c' h' hCaller hHold => ?_
    rcases Session.enter_callers hCaller with rfl | hCaller
    · cases hHold
    · exact ⟨c', hCaller, hHold⟩
  | call id call waits c w g hCalled => exact hs.call hApart hSafe hCalled
  | moved serverid userid => exact hs.of_callers rfl fun _ c' _ hCaller hHold => ⟨c', hCaller, hHold⟩
  | startSub hRunning => exact hs.of_callers rfl fun _ c' _ hCaller hHold => ⟨c', hCaller, hHold⟩
  | commitSub parent subs hRunning hSubs =>
    refine hs.of_callers rfl fun id c h hCaller hHold => ?_
    obtain ⟨c', hCaller', rfl⟩ := Option.map_eq_some_iff.mp hCaller
    refine ⟨c', hCaller', ?_⟩
    split at hHold
    · exact hHold
    · exact hHold
  | abortSub parent subs hSubs => exact hs.abortSub hSafe parent subs
  | endTop event hSubs =>
    have hQuiet := hs.quiet_endTop hSafe
    exact ⟨fun k => (hQuiet k).marked, fun k _ => hQuiet k, fun _ _ _ hCaller => by cases hCaller⟩
  | inval cacheid hashvalue => exact hs.inval cacheid hashvalue
  | alterServer serverid options =>
    have hAltered : (s.alterServer serverid options).Paired :=
      hs.of_callers rfl fun _ c' _ hCaller hHold => ⟨c', hCaller, hHold⟩
    exact hAltered.inval _ _
  | changeMapping serverid who row umid hRow =>
    have hChanged : (s.changeMapping serverid who row).Paired :=
      hs.of_callers rfl fun _ c' _ hCaller hHold => ⟨c', hCaller, hHold⟩
    exact hChanged.inval _ _

omit hs

omit [SysCache] in
theorem Session.paired_start (residue : ConnKey → Conn) (catalog : Catalog) :
    (Session.start residue catalog).Paired where
  marked _ := (Conn.quiet_of_closed rfl).marked
  free _ _ := Conn.quiet_of_closed rfl
  held _ _ _ hCaller := by cases hCaller

/-- In every run whose steps are safe, what is unread is marked, every caller finds on its
connection the replies to its own commands, and the end of a transaction leaves nothing
unread. -/
theorem every_reply_is_read (residue : ConnKey → Conn) (catalog : Catalog) (events : List Event)
    (hSafe : Along Session.step ReplySafe events (.start residue catalog))
    {s : Session} (hRun : run Session.step events (.start residue catalog) = .ok s) :
    (∀ k sock, (s.world.pool k).conn = some sock → 0 < sock.unread →
      (s.world.pool k).inConversation = true) ∧
    (∀ id c h sock, s.callers id = some c → c.hold = some h →
      (s.world.pool h.key).conn = some sock → sock.unread = h.pending) ∧
    ∀ event t, ReplySafe s (.endTop event) → Session.step (.endTop event) s = .ok t →
      ∀ k sock, (t.world.pool k).conn = some sock → sock.unread = 0 := by
  obtain ⟨-, hPaired⟩ : s.Apart ∧ s.Paired := by
    refine hSafe.run_invariant (I := fun s => s.Apart ∧ s.Paired) ?_
      ⟨Session.apart_start residue catalog, Session.paired_start residue catalog⟩ hRun
    rintro event - s t ⟨hApart, hPaired⟩ hSafe hStep
    refine ⟨hApart.step ?_ hStep, hPaired.step hApart hSafe hStep⟩
    rintro rfl
    exact hSafe
  refine ⟨hPaired.marked, fun id c h sock hCaller hHold hSock => ?_,
    fun event t hLast hEnd k sock hSock => ?_⟩
  · exact (hPaired.held id c h hCaller hHold).unread hSock
  · cases Session.moves_of_step hEnd with
    | endTop _ hSubs => exact (hPaired.quiet_endTop hLast k sock hSock).1

end Runs

/-- A query is cancelled while the probe for the expiry of fields waits, and the error is not
caught. -/
def cancelledProbe : List Event :=
  [.enter 0 1 false, .call 0 (.acquire plainServer plainUser false none) (answered 7),
    .call 0 .requireTtl (answered 2 ++ [.fails]), .endTop .abort]

/-- The connection stays in the pool with the reply on it: the next statement gets it for its
own first answer. -/
theorem cancelled_probe_leaves_reply :
    letI := plainCache
    ∃ s sock, run Session.step cancelledProbe (.start plainResidue plainCatalog) = .ok s ∧
      (s.world.pool plainKey).conn = some sock ∧ sock.unread = 1 ∧
      (s.world.pool plainKey).inConversation = false ∧ (s.world.pool plainKey).leased = false :=
  ⟨_, _, rfl, rfl, rfl, rfl, rfl⟩

/-- The same with an answer in time. -/
def answeredProbe : List Event :=
  [.enter 0 1 false, .call 0 (.acquire plainServer plainUser false none) (answered 7),
    .call 0 .requireTtl (answered 3)]

theorem every_reply_is_read_probe :
    letI := plainCache
    ∃ s, run Session.step answeredProbe (.start plainResidue plainCatalog) = .ok s ∧
      ∀ t, Session.step (.endTop .abort) s = .ok t →
        ∀ k sock, (t.world.pool k).conn = some sock → sock.unread = 0 := by
  let _ := plainCache
  refine ⟨_, rfl, fun t => (every_reply_is_read plainResidue plainCatalog answeredProbe ?_ rfl).2.2
    .abort t trivial⟩
  refine ⟨trivial, fun s hs => ⟨trivial, fun s' hs' => ⟨?_, fun _ _ => trivial⟩⟩⟩
  exact fun c h _ _ _ => ⟨.other, .other, .other, [], rfl⟩

end ValkeyFdw.Pool
