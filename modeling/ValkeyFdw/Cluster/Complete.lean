import Mathlib.Data.List.TakeWhile
import ValkeyFdw.Cluster.Machine

/-!
# A cluster scan loses nothing

A keyspace scan of a cluster that ends without an error has walked every primary
until its cursor was 0, has had an answer other than a redirect for every key a
page named, and has asked again for every key that was redirected. The one thing
that can break this is the copy of a redirected key, which ends at the first
zero byte: the scan is complete in every run whose redirected keys hold a zero
byte at most at their end, and in no larger class of runs
(`cluster_scan_complete_iff`).
-/

namespace ValkeyFdw

open ScanState

/-! ## The calls of a scan -/

/-- A call to a server, with its reply. -/
inductive Call where
  | shards (node : Node)
  | scanned (node : Node) (cursor : Bytes) (reply : Except ScanError (Bytes × List Bytes))
  | fetched (node : Node) (key : Bytes) (reply : ValueReply)

/-- The peer with a record of the calls made to it. -/
def Peer.recorded {ω : Type} (P : Peer ω) : Peer (ω × List Call) where
  shards node w := ((P.shards node w.1).1, (P.shards node w.1).2, w.2 ++ [.shards node])
  scan node cursor w := ((P.scan node cursor w.1).1, (P.scan node cursor w.1).2,
    w.2 ++ [.scanned node cursor (P.scan node cursor w.1).1])
  fetch node key w := ((P.fetch node key w.1).1, (P.fetch node key w.1).2,
    w.2 ++ [.fetched node key (P.fetch node key w.1).1])
  beyond w := P.beyond w.1

theorem Peer.recorded_scan {ω : Type} {P : Peer ω} {node : Node} {cursor : Bytes} {w w' : ω}
    {log log' : List Call} {reply : Except ScanError (Bytes × List Bytes)}
    (h : P.recorded.scan node cursor (w, log) = (reply, w', log')) :
    log' = log ++ [.scanned node cursor reply] := by
  cases h
  rfl

namespace Call

/-- The keys a page named. -/
def named : Call → List Bytes
  | .scanned _ _ (.ok (_, keys)) => keys
  | _ => []

/-- A page that was answered: the node, the cursor sent and the cursor returned. -/
def page : Call → Option (Node × Bytes × Bytes)
  | .scanned node cursor (.ok (got, _)) => some (node, cursor, got)
  | _ => none

end Call

/-- The pages of a node from cursor 0 on, each asked for with the cursor the one
before returned; the walk stands at a cursor, or has come to its end. -/
inductive Walk (node : Node) : List (Node × Bytes × Bytes) → Option Bytes → Prop
  | start : Walk node [] (some cursorZero)
  | page {pages : List (Node × Bytes × Bytes)} {cursor : Bytes} (got : Bytes) :
      Walk node pages (some cursor) → Walk node (pages ++ [(node, cursor, got)])
        (if got = cursorZero then none else some (cstr got))

/-- The nodes have been walked one after another, each to its end. -/
def Walked (nodes : List Node) (pages : List (Node × Bytes × Bytes)) : Prop :=
  ∃ walks : List (List (Node × Bytes × Bytes)), pages = walks.flatten ∧
    List.Forall₂ (fun node walk => Walk node walk none) nodes walks

/-- The key has had an answer other than a redirect. -/
def Answered (log : List Call) (key : Bytes) : Prop :=
  ∃ node reply, Call.fetched node key reply ∈ log ∧ reply.isRedirect = false

def Asked (log : List Call) (key : Bytes) : Prop := ∃ node reply, Call.fetched node key reply ∈ log

/-- The calls of a scan that lost nothing. -/
structure LostNothing (nodes : List Node) (log : List Call) : Prop where
  /-- Every primary was walked until its cursor was 0. -/
  walked : Walked nodes (log.filterMap Call.page)
  /-- Every key a page named had an answer other than a redirect. -/
  answered : ∀ call ∈ log, ∀ key ∈ call.named, Answered log key
  /-- A redirected key was asked for again under its own bytes. -/
  asked : ∀ before node key reply after, log = before ++ .fetched node key reply :: after →
    reply.isRedirect = true → Asked after key

/-! ## Copies of keys -/

/-- The key holds a zero byte at most at its end. -/
def Clean (key : Bytes) : Prop := 0 ∉ key.dropLast

variable {key : Bytes}

theorem cstr_append_zero (h : Clean key) : ∃ rest, cstr key ++ [0] = key ++ rest := by
  induction key with
  | nil => exact ⟨[0], rfl⟩
  | cons b key ih =>
    by_cases hb : b = 0
    · -- A zero byte in front is the whole key.
      have hNil : key = [] := by
        cases key with
        | nil => rfl
        | cons c key => exact absurd (by simp [hb]) h
      exact ⟨[], by simp [cstr, hb, hNil]⟩
    · obtain ⟨rest, hRest⟩ := ih (by
        intro hMem
        cases key with
        | nil => cases hMem
        | cons c key => exact h (by simp [List.dropLast_cons_cons, hMem]))
      refine ⟨rest, ?_⟩
      rw [cstr, List.takeWhile_cons_of_pos (by simpa using hb), List.cons_append, List.cons_append]
      exact congrArg (b :: ·) hRest

theorem copyKey_of_clean (h : Clean key) (beyond : Nat → UInt8) :
    copyKey beyond key = key := by
  obtain ⟨rest, hRest⟩ := cstr_append_zero h
  rw [copyKey, hRest]
  apply List.ext_getElem?
  intro i
  by_cases hi : i < key.length
  · simp [hi, List.getElem?_append_left hi]
  · simp [hi]

theorem cstr_length_lt (h : ¬Clean key) : (cstr key).length + 1 < key.length := by
  obtain ⟨i, hi, hZero⟩ := List.getElem_of_mem (not_not.mp h)
  rw [List.getElem_dropLast] at hZero
  rw [List.length_dropLast] at hi
  by_contra hLong
  have hInside : i < (cstr key).length := by omega
  have hSame : (cstr key)[i] = key[i] :=
    (List.takeWhile_prefix (l := key) (p := (· ≠ 0))).getElem hInside
  have hMem := List.mem_takeWhile_imp (List.getElem_mem hInside)
  simp [hSame, hZero] at hMem

/-- A key that is not clean is copied wrong with the right bytes behind the copy. -/
theorem exists_copyKey_ne (h : ¬Clean key) : ∃ beyond, copyKey beyond key ≠ key := by
  have hShort := cstr_length_lt h
  refine ⟨fun i => (key[i]?).getD 0 + 1, fun hSame => ?_⟩
  have hLast := congrArg (·[key.length - 1]?) hSame
  have hi : key.length - 1 < key.length := by omega
  have hOut : (cstr key ++ [0])[key.length - 1]? = none := by
    rw [List.getElem?_eq_none_iff, List.length_append, List.length_singleton]
    omega
  simp [copyKey, hi, hOut] at hLast

/-! ## The invariant -/

variable {ω : Type}

/-- The key is still to be asked for: it is on the page, it was redirected, or a node
that the retry pass has yet to come to is asked for it. -/
def ScanState.Owes (s : ScanState) (key : Bytes) : Prop :=
  key ∈ s.keys ∨ key ∈ s.redirected ∨
    (s.retryPass = true ∧ key ∈ s.planKeys ∧ ∃ i node, s.nodes[i]? = some node ∧
      (if s.started then s.curNode < i else s.curNode ≤ i) ∧ asks s.passMap node key = true)

/-- How far the walk of the primaries has come. -/
def ScanState.Walks (s : ScanState) (nodes : List Node) (pages : List (Node × Bytes × Bytes)) :
    Prop :=
  if s.retryPass then Walked nodes pages
  else s.nodes = nodes ∧ ∃ done cur, pages = done ++ cur ∧ Walked (nodes.take s.curNode) done ∧
    if s.started then Walk s.vconn cur s.cursor else cur = []

/-- What holds of a keyspace scan of a cluster and its calls, in every state. -/
structure ScanState.Covers (nodes : List Node) (s : ScanState) (log : List Call) : Prop where
  strategy : s.strategy = .keyspace
  fanout : s.fanout = true
  place : s.nodes[s.curNode]? = some s.vconn
  passMap : s.retryPass = true → ∃ map, s.passMap = some map ∧ s.nodes = map.nodes
  walks : s.Walks nodes (log.filterMap Call.page)
  named : ∀ call ∈ log, ∀ key ∈ call.named, Answered log key ∨ s.Owes key
  asked : ∀ before node key reply after, log = before ++ .fetched node key reply :: after →
    reply.isRedirect = true → Asked after key ∨ s.Owes key

/-- The call fetches the key. -/
def Call.Fetches (c : Call) (key : Bytes) : Prop := ∃ node reply, c = .fetched node key reply

namespace ScanState

section Invariant

variable {nodes : List Node} {s s' : ScanState} {log : List Call}

theorem Covers.quiet (h : s.Covers nodes log) (hStrategy : s'.strategy = .keyspace)
    (hFanout : s'.fanout = true) (hPlace : s'.nodes[s'.curNode]? = some s'.vconn)
    (hPassMap : s'.retryPass = true → ∃ map, s'.passMap = some map ∧ s'.nodes = map.nodes)
    (hWalks : s'.Walks nodes (log.filterMap Call.page)) (hOwes : ∀ key, s.Owes key → s'.Owes key) :
    s'.Covers nodes log where
  strategy := hStrategy
  fanout := hFanout
  place := hPlace
  passMap := hPassMap
  walks := hWalks
  named call hCall key hKey := (h.named call hCall key hKey).imp_right (hOwes key)
  asked before node key reply after hLog hRedirect :=
    (h.asked before node key reply after hLog hRedirect).imp_right (hOwes key)

/-- A turn with a call keeps the invariant if what was owed is owed still or is what
the call asks for, and the call's own keys are owed. -/
theorem Covers.call (h : s.Covers nodes log) (c : Call) (hStrategy : s'.strategy = .keyspace)
    (hFanout : s'.fanout = true) (hPlace : s'.nodes[s'.curNode]? = some s'.vconn)
    (hPassMap : s'.retryPass = true → ∃ map, s'.passMap = some map ∧ s'.nodes = map.nodes)
    (hWalks : s'.Walks nodes ((log ++ [c]).filterMap Call.page))
    (hOwes : ∀ key, s.Owes key → s'.Owes key ∨ c.Fetches key)
    (hNamed : ∀ key ∈ c.named, s'.Owes key)
    (hRedirect : ∀ node key reply, c = .fetched node key reply → reply.isRedirect = true →
      s'.Owes key) : s'.Covers nodes (log ++ [c]) where
  strategy := hStrategy
  fanout := hFanout
  place := hPlace
  passMap := hPassMap
  walks := hWalks
  named call hCall key hKey := by
    rcases List.mem_append.mp hCall with hOld | hNew
    · rcases h.named call hOld key hKey with ⟨node, reply, hMem, hReply⟩ | hOwed
      · exact .inl ⟨node, reply, List.mem_append_left _ hMem, hReply⟩
      · rcases hOwes key hOwed with hStill | ⟨node, reply, hc⟩
        · exact .inr hStill
        · cases hReply : reply.isRedirect with
          | true => exact .inr (hRedirect node key reply hc hReply)
          | false => exact .inl ⟨node, reply, by simp [hc], hReply⟩
    · obtain rfl := List.mem_singleton.mp hNew
      exact .inr (hNamed key hKey)
  asked before node key reply after hLog hReply := by
    rcases List.eq_nil_or_concat after with hNil | ⟨after, last, hAfter⟩
    · -- The redirect is the call itself.
      subst hNil
      obtain ⟨-, hc⟩ := List.append_inj' hLog rfl
      exact .inr (hRedirect node key reply (List.cons.inj hc).1 hReply)
    · rw [List.concat_eq_append] at hAfter
      subst hAfter
      rw [← List.cons_append, ← List.append_assoc] at hLog
      obtain ⟨hOld, hc⟩ := List.append_inj' hLog rfl
      obtain rfl := (List.cons.inj hc).1
      rcases h.asked before node key reply after hOld hReply with ⟨n', r', hMem⟩ | hOwed
      · exact .inl ⟨n', r', List.mem_append_left _ hMem⟩
      · rcases hOwes key hOwed with hStill | ⟨n', r', hc⟩
        · exact .inr hStill
        · exact .inl ⟨n', r', by simp [hc]⟩

theorem Walked.snoc {pages walk : List (Node × Bytes × Bytes)} {node : Node}
    (h : Walked nodes pages) (hWalk : Walk node walk none) :
    Walked (nodes ++ [node]) (pages ++ walk) := by
  obtain ⟨walks, rfl, hAll⟩ := h
  refine ⟨walks ++ [walk], by simp, ?_⟩
  exact List.rel_append hAll (.cons hWalk .nil)

theorem exists_asks (map : SlotMap) (key : Bytes) :
    ∃ (i : Nat) (node : Node), map.nodes[i]? = some node ∧ asks (some map) node key = true := by
  unfold asks
  cases hRoute : map.route key with
  | none =>
    refine ⟨0, map.nodes.head map.nonempty, ?_, by simp [hRoute]⟩
    rw [← List.head?_eq_getElem?, List.head?_eq_some_head]
  | some owner =>
    obtain ⟨i, hi, hNode⟩ := List.getElem_of_mem (SlotMap.route_mem hRoute)
    exact ⟨i, owner, by rw [List.getElem?_eq_getElem hi, hNode], by simp [hRoute]⟩

theorem Covers.keyed_iff (h : s.Covers nodes log) : s.Keyed ↔ s.retryPass = true := by
  simp [Keyed, h.strategy]

variable {key : Bytes}

/-- The page of a node takes from what is owed only what it asks for. -/
theorem Owes.takeKeys (hFanout : s.fanout = true) (hKeys : s.keys = [])
    (hStarted : s.started = false) (h : s.Owes key) : s.takeKeys.Owes key := by
  rcases h with h | h | ⟨hRetry, hPlan, i, node, hNode, hPlace, hAsks⟩
  · simp [hKeys] at h
  · exact .inr (.inl h)
  · rw [hStarted, if_neg (by simp)] at hPlace
    by_cases hi : i = s.curNode
    · subst hi
      refine .inl ?_
      simp [ScanState.takeKeys, hFanout, keysForNode, hNode, hPlan, hAsks]
    · refine .inr (.inr ⟨hRetry, hPlan, i, node, hNode, ?_, hAsks⟩)
      rw [show s.takeKeys.started = true from rfl, if_pos rfl]
      exact lt_of_le_of_ne hPlace (Ne.symm hi)

theorem Owes.attach_succ (hStarted : s.started = true) (h : s.Owes key) :
    (s.attach (s.curNode + 1)).Owes key := by
  rcases h with h | h | ⟨hRetry, hPlan, i, node, hNode, hPlace, hAsks⟩
  · exact .inl h
  · exact .inr (.inl h)
  · rw [hStarted, if_pos rfl] at hPlace
    refine .inr (.inr ⟨hRetry, hPlan, i, node, hNode, ?_, hAsks⟩)
    rw [show (s.attach (s.curNode + 1)).started = false from rfl, if_neg (by simp)]
    exact hPlace

/-- At the end of a pass only the redirected keys are owed. -/
theorem Covers.owes_passOver (h : s.Covers nodes log) (hIdle : s.Idle) (hOver : s.PassOver)
    (hOwes : s.Owes key) : key ∈ s.redirected := by
  rcases hOwes with hKey | hKey | ⟨hRetry, hPlan, i, node, hNode, hPlace, -⟩
  · simp [hIdle.2] at hKey
  · exact hKey
  · rcases hOver with ⟨-, hNone⟩ | ⟨hNot, -⟩
    · obtain ⟨hi, -⟩ := List.getElem?_eq_some_iff.mp hNode
      rcases keysPage_eq_none.mp hNone with hNil | ⟨hStarted, hFanout | hLast⟩
      · simp [hNil] at hPlan
      · simp [h.fanout] at hFanout
      · rw [hStarted, if_pos rfl] at hPlace
        omega
    · exact absurd (h.keyed_iff.mpr hRetry) hNot

theorem Covers.walked (h : s.Covers nodes log) (hOver : s.PassOver) :
    Walked nodes (log.filterMap Call.page) := by
  have hWalks := h.walks
  unfold Walks at hWalks
  rcases hOver with ⟨hKeyed, -⟩ | ⟨hNot, hStarted, hCursor, hNone⟩
  · rwa [h.keyed_iff.mp hKeyed, if_pos rfl] at hWalks
  · rw [h.keyed_iff] at hNot
    rw [if_neg hNot] at hWalks
    obtain ⟨rfl, walked, cur, hPages, hWalked, hCur⟩ := hWalks
    rw [hStarted, if_pos rfl, hCursor] at hCur
    have hLast : s.nodes.length ≤ s.curNode + 1 := by
      simpa [h.fanout] using advance_eq_none.mp hNone
    obtain ⟨hi, hVconn⟩ := List.getElem?_eq_some_iff.mp h.place
    have hAll : s.nodes.take s.curNode ++ [s.vconn] = s.nodes := by
      rw [← hVconn, List.take_append_getElem, List.take_of_length_le hLast]
    rw [hPages, ← hAll]
    exact Walked.snoc hWalked hCur

theorem Covers.repoint (h : s.Covers nodes log) (hIdle : s.Idle) (hOver : s.PassOver)
    (map : SlotMap) : (s.owedPass.repoint map).Covers nodes log := by
  refine h.quiet h.strategy h.fanout ?_ (fun _ => ⟨map, rfl, rfl⟩) ?_ fun key hOwes => ?_
  · exact map.first_node s.vconn
  · rw [Walks, if_pos (show (s.owedPass.repoint map).retryPass = true from rfl)]
    exact h.walked hOver
  · obtain ⟨i, node, hNode, hAsks⟩ := exists_asks map key
    exact .inr (.inr ⟨rfl, h.owes_passOver hIdle hOver hOwes, i, node, hNode,
      by simp [ScanState.repoint, attach], hAsks⟩)

variable {P : Peer ω} {S : Scan} {w w' : ω} {log' : List Call} {r : Step}

/-- What one turn leaves: the invariant, or the end of a scan that lost nothing. -/
def Outcome (nodes : List Node) (log : List Call) : Step → Prop
  | .row _ s | .next s | .pass s => s.Covers nodes log
  | .done _ => LostNothing nodes log
  | .raised _ => True

variable (h : s.Covers nodes log)

include h

theorem Covers.take (hBuffer : S.buffer = []) {keys : List Bytes} (hKeys : s.keys = key :: keys)
    {reply : ValueReply} (hClean : reply.isRedirect = true → Clean key) (beyond : Nat → UInt8) :
    Outcome nodes (log ++ [.fetched s.vconn key reply])
      ({ s with keys := keys }.oneKey S beyond key reply) := by
  -- Whatever else was owed is owed by every state that keeps the other fields.
  have hRest : ∀ t : ScanState, t.keys = keys → s.redirected ⊆ t.redirected →
      t.retryPass = s.retryPass → t.planKeys = s.planKeys → t.nodes = s.nodes →
      t.started = s.started → t.curNode = s.curNode → t.passMap = s.passMap →
      ∀ k, s.Owes k → t.Owes k ∨ (Call.fetched s.vconn key reply).Fetches k := by
    intro t hK hR h₁ h₂ h₃ h₄ h₅ h₆ k hOwes
    rcases hOwes with hk | hk | hk
    · rw [hKeys] at hk
      rcases List.mem_cons.mp hk with rfl | hk
      · exact .inr ⟨_, _, rfl⟩
      · exact .inl (.inl (hK ▸ hk))
    · exact .inl (.inr (.inl (hR hk)))
    · refine .inl (.inr (.inr ?_))
      rw [h₁, h₂, h₃, h₄, h₅, h₆]
      exact hk
  have hPages : (log ++ [Call.fetched s.vconn key reply]).filterMap Call.page =
      log.filterMap Call.page := by
    simp [Call.page]
  unfold oneKey
  rw [Scan.applyOverlay, if_pos hBuffer]
  dsimp only
  cases reply with
  | value rows =>
    cases rows with
    | error e => trivial
    | ok rows =>
      refine h.call (.fetched s.vconn key (.value (.ok rows))) h.strategy h.fanout h.place h.passMap
        ?_ (hRest _ rfl (fun _ hx => hx) rfl rfl rfl rfl rfl rfl) (by simp [Call.named])
        (by rintro _ _ _ ⟨⟩ ⟨⟩)
      rw [hPages]
      exact h.walks
  | error text =>
    dsimp only
    split_ifs with hRedirect hType
    · refine h.call (.fetched s.vconn key (.error text)) h.strategy h.fanout h.place h.passMap
        ?_ (hRest _ rfl (fun _ hx => List.mem_append_left _ hx) rfl rfl rfl rfl rfl rfl)
        (by simp [Call.named]) ?_
      · rw [hPages]
        exact h.walks
      · rintro _ _ _ ⟨⟩ -
        refine .inr (.inl ?_)
        simp [noteRedirect, copyKey_of_clean (hClean hRedirect) beyond]
    · refine h.call (.fetched s.vconn key (.error text)) h.strategy h.fanout h.place h.passMap
        ?_ (hRest _ rfl (fun _ hx => hx) rfl rfl rfl rfl rfl rfl) (by simp [Call.named]) ?_
      · rw [hPages]
        exact h.walks
      · rintro _ _ _ ⟨⟩ hTrue
        exact absurd hTrue hRedirect
    · trivial

theorem Covers.page (hIdle : s.Idle) (hKeyed : s.Keyed) (hPage : s.keysPage = some s') :
    s'.Covers nodes log := by
  have hRetry := h.keyed_iff.mp hKeyed
  have hWalks := h.walks
  rw [Walks, if_pos hRetry] at hWalks
  obtain ⟨-, ⟨hStarted, rfl⟩ | ⟨hStarted, -, hLt, rfl⟩⟩ := keysPage_eq_some.mp hPage
  · refine h.quiet h.strategy h.fanout h.place h.passMap ?_ fun key hOwes =>
      hOwes.takeKeys h.fanout hIdle.2 hStarted
    rwa [Walks, if_pos (show s.takeKeys.retryPass = true from hRetry)]
  · refine h.quiet h.strategy h.fanout ?_ h.passMap ?_ fun key hOwes =>
      (hOwes.attach_succ hStarted).takeKeys h.fanout hIdle.2 rfl
    · obtain ⟨node, hNode⟩ : ∃ node, s.nodes[s.curNode + 1]? = some node :=
        ⟨_, List.getElem?_eq_getElem hLt⟩
      show s.nodes[s.curNode + 1]? = some (s.attach (s.curNode + 1)).vconn
      rw [attach_vconn hNode, hNode]
    · rwa [Walks, if_pos (show (s.attach (s.curNode + 1)).takeKeys.retryPass = true from hRetry)]

theorem Covers.advance (hWalk : ¬s.Keyed) (hStarted : s.started = true) (hCursor : s.cursor = none)
    (hAdvance : s.advance = some s') : s'.Covers nodes log := by
  obtain ⟨-, hLt, rfl⟩ := advance_eq_some.mp hAdvance
  rw [h.keyed_iff] at hWalk
  obtain ⟨node, hNode⟩ : ∃ node, s.nodes[s.curNode + 1]? = some node :=
    ⟨_, List.getElem?_eq_getElem hLt⟩
  refine h.quiet h.strategy h.fanout ?_ h.passMap ?_ fun key hOwes => hOwes.attach_succ hStarted
  · show s.nodes[s.curNode + 1]? = some (s.attach (s.curNode + 1)).vconn
    rw [attach_vconn hNode, hNode]
  · have hWalks := h.walks
    rw [Walks, if_neg hWalk] at hWalks
    obtain ⟨rfl, walked, cur, hPages, hWalked, hCur⟩ := hWalks
    rw [hStarted, if_pos rfl, hCursor] at hCur
    obtain ⟨hi, hVconn⟩ := List.getElem?_eq_some_iff.mp h.place
    rw [Walks, if_neg (show ¬(s.attach (s.curNode + 1)).retryPass = true from hWalk)]
    refine ⟨rfl, _, [], (List.append_nil _).symm, ?_, rfl⟩
    show Walked (s.nodes.take (s.curNode + 1)) _
    rw [hPages, ← List.take_append_getElem hi, hVconn]
    exact Walked.snoc hWalked hCur

theorem Covers.scan (hIdle : s.Idle) (hWalk : ¬s.Keyed)
    (hMore : ¬(s.started = true ∧ s.cursor = none)) (cursor : Bytes) (keys : List Bytes) :
    ScanState.Covers nodes { s with
      started := true
      cursor := if cursor = cursorZero then none else some (cstr cursor)
      keys := keys } (log ++ [.scanned s.vconn s.sent (.ok (cursor, keys))]) := by
  rw [h.keyed_iff] at hWalk
  refine h.call (.scanned s.vconn s.sent (.ok (cursor, keys))) h.strategy h.fanout h.place h.passMap
    ?_ ?_ (fun key hKey => .inl hKey) (by rintro _ _ _ ⟨⟩)
  · have hWalks := h.walks
    rw [Walks, if_neg hWalk] at hWalks
    obtain ⟨hNodes, walked, cur, hPages, hWalked, hCur⟩ := hWalks
    have hAt : Walk s.vconn cur (some s.sent) := by
      unfold sent
      cases hStarted : s.started with
      | false =>
        rw [hStarted, if_neg (by simp)] at hCur
        rw [hCur, if_neg (by simp)]
        exact .start
      | true =>
        rw [hStarted, if_pos rfl] at hCur
        cases hCursor : s.cursor with
        | none => exact absurd ⟨hStarted, hCursor⟩ hMore
        | some c => rwa [if_pos rfl, Option.getD_some, ← hCursor]
    rw [Walks, if_neg (show ¬s.retryPass = true from hWalk)]
    refine ⟨hNodes, walked, cur ++ [(s.vconn, s.sent, cursor)], ?_, hWalked, ?_⟩
    · rw [List.filterMap_append, hPages, List.append_assoc]
      rfl
    · rw [if_pos rfl]
      exact hAt.page cursor
  · rintro key (hKey | hKey | ⟨hRetry, -⟩)
    · simp [hIdle.2] at hKey
    · exact .inl (.inr (.inl hKey))
    · exact absurd hRetry hWalk

theorem Covers.finish (hIdle : s.Idle) (hOver : s.PassOver) (hNone : s.redirected = []) :
    LostNothing nodes log := by
  have hOwes : ∀ key, ¬s.Owes key := fun key hOwes => by
    simpa [hNone] using h.owes_passOver hIdle hOver hOwes
  exact ⟨h.walked hOver, fun call hCall key hKey => (h.named call hCall key hKey).resolve_right
    (hOwes key), fun before node key reply after hLog hRedirect =>
    (h.asked before node key reply after hLog hRedirect).resolve_right (hOwes key)⟩

theorem Covers.shards {node : Node} :
    s.Covers nodes (log ++ [.shards node]) := by
  refine h.call (.shards node) h.strategy h.fanout h.place h.passMap ?_ (fun _ => .inl)
    (by simp [Call.named]) (by rintro _ _ _ ⟨⟩)
  rw [List.filterMap_append]
  exact (List.append_nil _).symm ▸ h.walks

omit h

/-- The redirected keys of the calls are clean. -/
def CleanCalls (log : List Call) : Prop :=
  ∀ node key reply, Call.fetched node key reply ∈ log → reply.isRedirect = true → Clean key

/-- Every turn of a scan that has written nothing keeps the invariant. -/
theorem Covers.turn (h : s.Covers nodes log) (hBuffer : S.buffer = [])
    (hTurn : Turn P.recorded S s (w, log) r (w', log')) (hClean : CleanCalls log') :
    Outcome nodes log' r := by
  cases hTurn with
  | emit hReply =>
    exact h.quiet h.strategy h.fanout h.place h.passMap h.walks fun _ hOwes => hOwes
  | take hReply hKeys hFetch =>
    cases hFetch
    exact h.take hBuffer hKeys (fun hRedirect => hClean s.vconn _ _
      (List.mem_append_right _ (List.mem_singleton.mpr rfl)) hRedirect) _
  | page hIdle hKeyed hPage => exact h.page hIdle hKeyed hPage
  | advance hIdle hWalk hStarted hCursor hAdvance =>
    exact h.advance hWalk hStarted hCursor hAdvance
  | scan hIdle hWalk hMore hScan =>
    rw [Peer.recorded_scan hScan]
    exact h.scan hIdle hWalk hMore _ _
  | finish hIdle hOver hNone =>
    rw [drainTail, if_pos hBuffer]
    exact h.finish hIdle hOver hNone
  | passPlain _ _ _ _ hPlain => simp [h.fanout] at hPlain
  | passCached hIdle hOver _ _ _ _ => exact h.repoint hIdle hOver _
  | passLoaded hIdle hOver _ _ _ _ hLoad =>
    obtain rfl : log' = log ++ [.shards s.vconn] := (congrArg (fun r => r.2.2) hLoad).symm
    exact h.shards.repoint hIdle hOver _
  | raised => trivial

theorem covers_fresh (map : SlotMap) :
    (fresh .keyspace [] (.cluster map)).Covers map.nodes [] where
  strategy := rfl
  fanout := rfl
  place := map.first_node _
  passMap := by rintro ⟨⟩
  walks := by
    rw [Walks, if_neg (by simp [fresh, attach])]
    exact ⟨rfl, [], [], rfl, ⟨[], rfl, .nil⟩, rfl⟩
  named := by simp
  asked := by simp

theorem log_subset (hTurn : Turn P.recorded S s (w, log) r (w', log'))
    (hOk : ∀ e, r ≠ .raised e) : log ⊆ log' := by
  cases hTurn with
  | take _ _ hFetch =>
    cases hFetch
    exact List.subset_append_left _ _
  | scan _ _ _ hScan =>
    rw [Peer.recorded_scan hScan]
    exact List.subset_append_left _ _
  | passLoaded _ _ _ _ _ _ hLoad =>
    obtain rfl : log' = log ++ [.shards s.vconn] := (congrArg (fun r => r.2.2) hLoad).symm
    exact List.subset_append_left _ _
  | raised => exact absurd rfl (hOk _)
  | _ => exact fun _ h => h

theorem CleanCalls.mono (h : CleanCalls log') (hSub : log ⊆ log') : CleanCalls log :=
  fun node key reply hMem => h node key reply (hSub hMem)

theorem covers_of_reach {map : SlotMap} {w₀ : ω} {rows : List Row} {n : Nat} {x : ω × List Call}
    (h : Reach P.recorded S (fresh .keyspace [] (.cluster map)) (w₀, []) rows n s x)
    (hBuffer : S.buffer = []) (hClean : CleanCalls x.2) : s.Covers map.nodes x.2 := by
  induction h with
  | start => exact covers_fresh map
  | row _ hStep ih =>
    have hTurn := turn_of_step hStep
    exact (ih (hClean.mono (log_subset hTurn nofun))).turn hBuffer hTurn hClean
  | next _ hStep ih =>
    have hTurn := turn_of_step hStep
    exact (ih (hClean.mono (log_subset hTurn nofun))).turn hBuffer hTurn hClean
  | pass _ hStep ih =>
    have hTurn := turn_of_step hStep
    exact (ih (hClean.mono (log_subset hTurn nofun))).turn hBuffer hTurn hClean

end Invariant

end ScanState

/-! ## The budget of retry passes -/

section Budget

variable {P : Peer ω} {S : Scan} {s : ScanState} {w w' : ω}

/-- A turn leaves the budget alone, or begins a retry pass and spends one of it. -/
def ScanState.Spends (s : ScanState) : Step → Prop
  | .row _ s' | .next s' => s'.redirectPasses = s.redirectPasses
  | .pass s' => s'.redirectPasses + 1 = s.redirectPasses
  | .done _ | .raised _ => True

theorem ScanState.spends_of_turn {r : Step} (hTurn : Turn P S s w r w') : s.Spends r := by
  have hTake : ∀ t : ScanState, t.redirectPasses = s.redirectPasses → ∀ beyond key reply,
      s.Spends (t.oneKey S beyond key reply) := by
    intro t ht beyond key reply
    unfold oneKey
    split
    · exact ht
    · exact ht
    · split
      · split_ifs
        · exact ht
        · exact ht
        · trivial
      · trivial
      · exact ht
  cases hTurn with
  | emit => exact rfl
  | take =>
    refine hTake _ ?_ _ _ _
    rfl
  | page _ _ h =>
    obtain ⟨-, ⟨-, rfl⟩ | ⟨-, -, -, rfl⟩⟩ := keysPage_eq_some.mp h
    · exact rfl
    · exact rfl
  | advance _ _ _ _ h =>
    obtain ⟨-, -, rfl⟩ := advance_eq_some.mp h
    exact rfl
  | scan => exact rfl
  | finish =>
    unfold drainTail
    split_ifs
    · trivial
    · split
      · trivial
      · exact rfl
  | passPlain _ _ _ hBudget _ => exact Nat.succ_pred hBudget
  | passCached _ _ _ hBudget _ _ => exact Nat.succ_pred hBudget
  | passLoaded _ _ _ hBudget _ _ _ => exact Nat.succ_pred hBudget
  | raised => trivial

/-- The passes a scan has begun and those it may still begin are those it set out with. -/
theorem ScanState.passes_of_reach {s₀ : ScanState} {w₀ : ω} {rows : List Row} {n : Nat}
    (h : Reach P S s₀ w₀ rows n s w) : n + s.redirectPasses = s₀.redirectPasses := by
  induction h with
  | start => exact Nat.zero_add _
  | row _ hStep ih =>
    have hSame := spends_of_turn (turn_of_step hStep)
    rw [Spends] at hSame
    omega
  | next _ hStep ih =>
    have hSame := spends_of_turn (turn_of_step hStep)
    rw [Spends] at hSame
    omega
  | pass _ hStep ih =>
    have hLess := spends_of_turn (turn_of_step hStep)
    rw [Spends] at hLess
    omega

end Budget

/-! ## A key that is not clean -/

/-- A cluster of one primary whose map places no slot. -/
def lonePrimary : SlotMap where
  nodes := [⟨[], 0⟩]
  owner _ := none
  nodup := List.nodup_singleton _
  nonempty := nofun

/-- A primary that names one key, redirects the first fetch and answers the second:
its state says whether the first has been made. -/
def redirectsOnce (key : Bytes) (beyond : Nat → UInt8) : Peer Bool where
  shards _ w := (.ok lonePrimary, w)
  scan _ _ w := (.ok (cursorZero, [key]), w)
  fetch _ _ w := (if w then .value (.ok []) else .error (ascii "MOVED 1 a:1"), true)
  beyond _ := beyond

/-- The calls of a scan of `redirectsOnce`. -/
def redirectCalls (key : Bytes) (beyond : Nat → UInt8) : List Call :=
  [.scanned ⟨[], 0⟩ cursorZero (.ok (cursorZero, [key])),
   .fetched ⟨[], 0⟩ key (.error (ascii "MOVED 1 a:1")), .shards ⟨[], 0⟩,
   .fetched ⟨[], 0⟩ (copyKey beyond key) (.value (.ok []))]

theorem ends_redirectsOnce (key : Bytes) (beyond : Nat → UInt8) :
    Ends (redirectsOnce key beyond).recorded plainScan
      (fresh .keyspace [] (.cluster lonePrimary)) (false, []) [] 1
      (true, redirectCalls key beyond) :=
  ⟨_, _, .next (.next (.pass (.next (.next .start rfl) rfl) rfl) rfl) rfl, rfl⟩

theorem not_lostNothing_of_copy {beyond : Nat → UInt8} (h : copyKey beyond key ≠ key) :
    ¬LostNothing lonePrimary.nodes (redirectCalls key beyond) := by
  intro hLost
  obtain ⟨node, reply, hMem⟩ := hLost.asked [.scanned ⟨[], 0⟩ cursorZero (.ok (cursorZero, [key]))]
    ⟨[], 0⟩ key _ _ rfl rfl
  simp only [List.mem_cons, reduceCtorEq, Call.fetched.injEq, List.not_mem_nil, or_false,
    false_or] at hMem
  exact h hMem.2.1.symm

/-- A scan makes at most three retry passes. If it ends without an error it has lost
nothing, in every run whose redirected keys are taken from a set of clean keys,
and no set with another key has this property. -/
theorem cluster_scan_complete_iff (K : Bytes → Prop) :
    (∀ (ω : Type) (P : Peer ω) (S : Scan) (map : SlotMap) (w₀ w : ω) (rows : List Row) (n : Nat)
      (s : ScanState), Reach P S (fresh .keyspace [] (.cluster map)) w₀ rows n s w → n ≤ 3) ∧
    ((∀ (ω : Type) (P : Peer ω) (S : Scan) (map : SlotMap) (w₀ w : ω) (rows : List Row) (n : Nat)
      (log : List Call), S.buffer = [] →
      Ends P.recorded S (fresh .keyspace [] (.cluster map)) (w₀, []) rows n (w, log) →
      (∀ node key reply, .fetched node key reply ∈ log → reply.isRedirect = true → K key) →
      LostNothing map.nodes log) ↔ ∀ key, K key → Clean key) := by
  refine ⟨?_, ?_, ?_⟩
  · intro ω P S map w₀ w rows n s hReach
    have hPasses := passes_of_reach hReach
    rw [show (fresh .keyspace [] (.cluster map)).redirectPasses = 3 from rfl] at hPasses
    omega
  · intro hAll key hKey
    by_contra hDirty
    obtain ⟨beyond, hCopy⟩ := exists_copyKey_ne hDirty
    refine not_lostNothing_of_copy hCopy (hAll Bool _ plainScan lonePrimary false true [] 1 _ rfl
      (ends_redirectsOnce key beyond) ?_)
    intro node key' reply hMem hRedirect
    simp only [redirectCalls, List.mem_cons, reduceCtorEq, Call.fetched.injEq, List.not_mem_nil,
      or_false, false_or] at hMem
    rcases hMem with ⟨-, rfl, -⟩ | ⟨-, -, rfl⟩
    · exact hKey
    · cases hRedirect
  · intro hClean ω P S map w₀ w rows n log hBuffer hEnds hRedirects
    obtain ⟨s, s', hReach, hStep⟩ := hEnds
    have hCalls : CleanCalls log := fun node key reply hMem hRedirect =>
      hClean key (hRedirects node key reply hMem hRedirect)
    exact (covers_of_reach hReach hBuffer hCalls).turn hBuffer (turn_of_step hStep) hCalls

/-- The key `a`, zero, `b` is redirected and then asked for as `a`, zero, `c`. -/
theorem zero_byte_asked_wrong :
    Ends (redirectsOnce [0x61, 0, 0x62] fun _ => 0x63).recorded plainScan
      (fresh .keyspace [] (.cluster lonePrimary)) (false, []) [] 1
      (true, redirectCalls [0x61, 0, 0x62] fun _ => 0x63) ∧
    copyKey (fun _ => 0x63) [0x61, 0, 0x62] = [0x61, 0, 0x63] ∧
    ¬LostNothing lonePrimary.nodes (redirectCalls [0x61, 0, 0x62] fun _ => 0x63) :=
  ⟨ends_redirectsOnce _ _, rfl, not_lostNothing_of_copy (by decide)⟩

end ValkeyFdw
