import ValkeyFdw.Pool.Estimate
import ValkeyFdw.Pool.Routes

/-!
# What a request for a connection gets

A slot is refused only when all of them are leased (`connTakeFreeSlot_refuses_iff`). With one
that is free, whoever passes the checks gets a connection from a network that answers
(`getConnectionInternal_served`). What is handed over leads to the endpoint that was asked for,
if every socket leads where its entry points to and the name of the node is one that an entry
can hold (`Bond.Taken.requested`).
-/

namespace ValkeyFdw.Pool

open Raise

/-! ## A network that answers -/

section Answers

variable {k : ConnKey} {n : Nat} {w : World}

/-- The socket is open, and the next waits are answered. -/
structure Ready (k : ConnKey) (n : Nat) (w : World) : Prop where
  socket : (w.pool k).conn ≠ none
  waits : ∃ m, n ≤ m ∧ w.waits = answered m

theorem Ready.setConn {e : Conn} (h : Ready k n w) (hConn : e.conn ≠ none) :
    Ready k n (w.setConn k e) where
  socket := by rwa [w.setConn_self]
  waits := h.waits

variable {E : World → Prop}

theorem Ready.wp_await {Q : Answer → World → Prop} (h : Ready k (n + 1) w)
    (hQ : ∀ w', w'.pool = w.pool → Ready k n w' → Q .other w') : wp await Q E w := by
  obtain ⟨m, hm, hWaits⟩ := h.waits
  obtain ⟨m, rfl⟩ : ∃ m', m = m' + 1 := ⟨m - 1, by omega⟩
  have hHead : w.waits = .answers .other :: answered m := hWaits
  refine Pool.wp_await (fun a rest hRest => ?_) fun rest hFails => absurd ⟨_, _, hHead⟩ hFails
  rw [hHead] at hRest
  cases hRest
  exact hQ _ rfl ⟨h.socket, m, by omega, rfl⟩

theorem wp_socketAt_of_known {Q : Socket → World → Prop} (sock : Socket)
    (hConn : (w.pool k).conn = some sock) (hQ : Q sock w) :
    wp (socketAt k (some sock.link.id)) Q E w := by
  unfold socketAt
  simp only [wp_bind, wp_readConn, hConn, if_true, wp_pure]
  exact hQ

theorem Ready.wp_roundTrip (h : Ready k (n + 3) w) :
    wp (roundTrip k) (fun a w' => a = .other ∧ Ready k n w') E w := by
  obtain ⟨sock, hSock⟩ := Option.ne_none_iff_exists'.mp h.socket
  unfold roundTrip
  simp only [wp_bind, wp_readConn, hSock, Option.map_some, appendCommand, ioFlush, ioGetReply]
  refine h.wp_await fun w₁ hPool₁ h₁ => ?_
  refine wp_socketAt_of_known sock (by rw [hPool₁, hSock]) ?_
  rw [wp_modify]
  have hHanded : Ready k (n + 2) (w₁.hand k sock) := by
    refine ⟨?_, h₁.waits⟩
    change ((w₁.setConn k _).pool k).conn ≠ none
    rw [World.setConn_self]
    exact Option.some_ne_none _
  have hConn : ((w₁.hand k sock).pool k).conn = some { sock with unread := sock.unread + 1 } := by
    change ((w₁.setConn k _).pool k).conn = _
    rw [World.setConn_self]
  refine hHanded.wp_await fun w₂ hPool₂ h₂ => ?_
  rw [wp_pure]
  refine h₂.wp_await fun w₃ hPool₃ h₃ => ?_
  refine wp_socketAt_of_known { sock with unread := sock.unread + 1 }
    (by rw [hPool₃, hPool₂, hConn]) ?_
  rw [wp_modifyConn, wp_pure]
  exact ⟨rfl, h₃.setConn (Option.some_ne_none _)⟩

theorem Ready.wp_connCommand (h : Ready k (n + 3) w) (what : String) :
    wp (connCommand k what) (fun _ w' => Ready k n w') E w := by
  unfold connCommand
  simp only [wp_bind, wp_readConn, wp_modifyConn]
  have hMarked : Ready k (n + 3) (w.setConn k { w.pool k with inConversation := true }) :=
    h.setConn h.socket
  refine wp_mono hMarked.wp_roundTrip ?_ fun _ => id
  rintro a w' ⟨rfl, h'⟩
  simp only [wp_raiseIf, wp_pure]
  exact ⟨fun hError => absurd hError Bool.false_ne_true, fun _ => h'.setConn h'.socket⟩

theorem Ready.mono {m : Nat} (h : Ready k n w) (hm : m ≤ n) : Ready k m w where
  socket := h.socket
  waits := by
    obtain ⟨l, hl, hWaits⟩ := h.waits
    exact ⟨l, hm.trans hl, hWaits⟩

/-- The number of answers that are enough to open a socket. -/
def openWaits : Nat := 14

/-- A network that answers lets a connection be opened. -/
theorem wp_connOpen_answered (user : UserOptions) (hWaits : w.waits = answered openWaits) :
    wp (connOpen k user) (fun _ _ => True) E w := by
  have hHead : w.waits = .answers .other :: answered 13 := hWaits
  unfold connOpen
  rw [wp_bind]
  refine Pool.wp_await (fun a rest hRest => ?_) fun rest hFails => absurd ⟨_, _, hHead⟩ hFails
  rw [hHead] at hRest
  cases hRest
  rw [wp_bind, wp_modify]
  have hOpen : Ready k 13 ({ w with waits := answered 13 }.open k user) := by
    refine ⟨?_, 13, le_refl _, rfl⟩
    change ((World.setConn _ k _).pool k).conn ≠ none
    rw [World.setConn_self]
    exact Option.some_ne_none _
  generalize World.open { w with waits := answered 13 } k user = w₀ at hOpen
  have hHandshake : wp (connForceHandshake k) (fun _ => Ready k 9) E w₀ := by
    unfold connForceHandshake
    simp only [wp_bind, wp_readConn, wp_ite, wp_pure]
    refine ⟨fun _ => ?_, fun _ => hOpen.mono (by omega)⟩
    refine hOpen.wp_await fun w₁ _ h₁ => ?_
    exact h₁.wp_connCommand _
  have hAuthenticate : ∀ w₁, Ready k 9 w₁ →
      wp (connAuthenticate k user) (fun _ => Ready k 6) E w₁ := by
    intro w₁ h₁
    unfold connAuthenticate
    split
    · exact h₁.mono (by omega)
    · rw [wp_bind]
      exact h₁.wp_connCommand _
  rw [wp_bind]
  refine wp_mono hHandshake (fun _ w₁ h₁ => ?_) fun _ => id
  rw [wp_bind]
  refine wp_mono (hAuthenticate w₁ h₁) (fun _ w₂ h₂ => ?_) fun _ => id
  simp only [connNegotiateResp3, connProbeScript, wp_bind, wp_modifyConn, wp_raiseIf]
  refine wp_mono h₂.wp_roundTrip ?_ fun _ => id
  rintro a w₃ ⟨rfl, h₃⟩
  refine ⟨fun hError => absurd hError Bool.false_ne_true, fun _ => ?_⟩
  have hNegotiated : Ready k 3 (w₃.setConn k { w₃.pool k with resp3 := false }) :=
    h₃.setConn h₃.socket
  exact wp_mono hNegotiated.wp_roundTrip (fun _ _ _ => trivial) fun _ => id

end Answers

section Requests

variable [SysCache] {server : ForeignServer} {user : UserMapping} {clusterAware : Bool} {w : World}

/-- Who passes the checks and finds a free slot gets a connection from a network that
answers. -/
theorem getConnectionInternal_served (node : Option Node) (hFree : ¬AllLeased server user w)
    (hPasses : refuses server user clusterAware = false) :
    ∃ k w', getConnectionInternal server user clusterAware node
      { w with waits := answered openWaits } = .ok k w' := by
  refine returns_iff.mpr (wp_getConnectionInternal (fun hNone => ?_) (fun k e _ hRefuses => ?_)
    (fun k e _ _ _ => ?_) fun _ _ _ _ _ => trivial)
  · exact hFree ((picks_eq_none_iff node).mp hNone)
  · exact absurd (hPasses.symm.trans hRefuses) Bool.false_ne_true
  · exact wp_connOpen_answered user.options rfl

/-- A slot is refused exactly when all of them are taken. -/
theorem connTakeFreeSlot_refuses_iff (server : ForeignServer) (user : UserMapping)
    (node : Option Node) (w : World) :
    (∃ e w', connTakeFreeSlot server.serverid user.userid node w = .error e w') ↔
      AllLeased server user w := by
  rw [← picks_eq_none_iff node, picks, Option.map_eq_none_iff, raises_iff]
  unfold connTakeFreeSlot
  simp only [wp_bind, wp_get]
  split
  · rename_i i hSlot
    simp [hSlot]
  · rename_i i hSlot
    simp [hSlot]
  · rename_i hSlot
    simp [hSlot]

end Requests

/-! ## Where it leads -/

/-- The name of the node is one that an entry can hold. -/
def Fits (node : Option Node) : Prop :=
  ∀ n, node = some n → n.host ≠ [] ∧ n.host.length < maxNodeHost

theorem fits_none : Fits none := fun _ hn => absurd hn (Option.some_ne_none _).symm

instance (node : Option Node) : Decidable (Fits node) :=
  match node with
  | none => isTrue fits_none
  | some n => decidable_of_iff (n.host ≠ [] ∧ n.host.length < maxNodeHost)
      ⟨fun h _ hn => Option.some.inj hn ▸ h, fun h => h n rfl⟩

section Bonds

variable [SysCache] {server : ForeignServer} {user : UserMapping} {clusterAware : Bool}
  {node : Option Node} {w w' : World} {k : ConnKey} {b : Bond}

/-- Where the socket of a bond is to lead. -/
def Bond.target (options : ServerOptions) (b : Bond) : Endpoint :=
  if b.nodeHost = [] then options.endpoint else ⟨b.nodeHost, b.nodePort, none⟩

/-- The endpoint that is asked for: the server's own, or that of a node. -/
def requested (options : ServerOptions) : Option Node → Endpoint
  | none => options.endpoint
  | some n => nodeEndpoint n

theorem Bond.Taken.leads {before : Option Bond} (h : Bond.Taken server user node before b)
    (hBefore : ∀ b₀, before = some b₀ → b₀.link.endpoint = b₀.target server.options) :
    b.link.endpoint = b.target server.options := by
  rcases h.socket with ⟨-, hEndpoint⟩ | ⟨b₀, hb₀, -, hLink, hHost, hPort⟩
  · exact hEndpoint
  · rw [hLink, hBefore b₀ hb₀, Bond.target, Bond.target, hHost, hPort]

theorem Bond.Taken.requested {before : Option Bond} (h : Bond.Taken server user node before b)
    (hLeads : b.link.endpoint = b.target server.options) (hFits : Fits node) :
    b.link.endpoint = requested server.options node := by
  cases node with
  | none => rw [hLeads, Bond.target, if_pos (h.own rfl), Pool.requested]
  | some n =>
    obtain ⟨hHost, hPort⟩ := h.named n rfl (hFits n rfl).2
    rw [hLeads, Bond.target, hHost, hPort, if_neg (hFits n rfl).1, Pool.requested, nodeEndpoint]

theorem Taking.took (h : Taking server user clusterAware node w w' (some (.of (.taken k)))) :
    ∃ e, picks server user node w = some (k, e) ∧ w'.subid = w.subid ∧
      (∀ k', k' ≠ k → w'.pool k' = w.pool k') ∧ (w'.pool k).leased = true ∧
      (w'.pool k).leaseSubid = w.subid := by
  rcases h.picked with ⟨-, hNone⟩ | ⟨k', e, hPicks, hSubid, hOthers, hLeased, hLease, hGain⟩
  · cases hNone
  · cases hGain _ rfl
    exact ⟨e, hPicks, hSubid, hOthers, hLeased, hLease⟩

end Bonds

end ValkeyFdw.Pool
