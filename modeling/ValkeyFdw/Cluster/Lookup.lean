import ValkeyFdw.Cluster.Rescan

/-!
# What a scan of named keys returns

A scan whose keys the plan named takes one page at each node: the keys that the
node is asked for. If every one of them is answered there, without a redirect,
the scan returns the rows of these pages in order, or fails where a value cannot
be read (`returns_plain`, `returns_cluster`). The transaction has written nothing.
-/

namespace ValkeyFdw.ScanState

open Gather

variable {P : Peer Unit} {S : Scan} {s : ScanState} {out : List Row}

/-! ## One page -/

theorem returns_done_iff {s' : ScanState} (h : s.step P S () = (.done s', ())) :
    Returns P S s () out ↔ out = [] := by
  constructor
  · intro hReturns
    exact hReturns.unique (.done h)
  · rintro rfl
    exact .done h

theorem not_returns_raised {e : ScanError} (h : s.step P S () = (.raised e, ())) :
    ¬Returns P S s () out := by
  intro hReturns
  cases hReturns with
  | done hStep | row hStep _ | next hStep _ | pass hStep _ => cases h.symm.trans hStep

/-- The rows at hand are returned first. -/
theorem returns_curReply {rows : List Row} : Returns P S { s with curReply := rows } () out ↔
    ∃ rest, out = rows ++ rest ∧ Returns P S { s with curReply := [] } () rest := by
  induction rows generalizing out with
  | nil => simp
  | cons row rows ih =>
    have hStep : ScanState.step P S { s with curReply := row :: rows } () =
        (.row row { s with curReply := rows }, ()) := rfl
    rw [returns_row_iff hStep]
    constructor
    · rintro ⟨rest, rfl, hRest⟩
      obtain ⟨rest', rfl, hRest'⟩ := ih.mp hRest
      exact ⟨rest', rfl, hRest'⟩
    · rintro ⟨rest, rfl, hRest⟩
      exact ⟨rows ++ rest, rfl, ih.mpr ⟨rest, rfl, hRest⟩⟩

variable {answer : Bytes → Except ReadError (List Row)}

theorem returns_keys {keys : List Bytes} (hBuffer : S.buffer = []) (hReply : s.curReply = [])
    (hFetch : ∀ key ∈ keys, P.fetch s.vconn key () = (.value (answer key), ())) :
    Returns P S { s with keys := keys } () out ↔
      ∃ rows rest, gather answer keys = .ok rows ∧ out = rows ++ rest ∧
        Returns P S { s with keys := [] } () rest := by
  induction keys generalizing out with
  | nil =>
    constructor
    · intro h
      exact ⟨[], out, rfl, rfl, h⟩
    · rintro ⟨rows, rest, hRows, rfl, hRest⟩
      cases hRows
      exact hRest
  | cons key keys ih =>
    rw [List.forall_mem_cons] at hFetch
    have hStep : ScanState.step P S { s with keys := key :: keys } () =
        (({ s with keys := keys } : ScanState).oneKey S (P.beyond ()) key (.value (answer key)), ()) := by
      simp only [step, hReply, hFetch.1]
    rw [oneKey, Scan.applyOverlay, if_pos hBuffer] at hStep
    dsimp only at hStep
    rw [gather]
    cases hAnswer : answer key with
    | error e =>
      rw [hAnswer] at hStep
      constructor
      · exact fun h => absurd h (not_returns_raised hStep)
      · rintro ⟨rows, rest, hRows, -⟩
        cases hRows
    | ok own =>
      rw [hAnswer] at hStep
      have hSame : ({ s with keys := keys, curReply := [] } : ScanState) = { s with keys := keys } := by
        rw [hReply]
      refine (returns_next_iff hStep).trans ((@returns_curReply P S { s with keys := keys } out own).trans ?_)
      simp only [hSame, ih hFetch.2]
      cases hRest : gather answer keys with
      | error e => simp [Except.bind, Except.map]
      | ok more =>
        simp only [Except.bind, Except.map, Except.ok.injEq]
        constructor
        · rintro ⟨rest, rfl, rows, rest', rfl, rfl, h⟩
          exact ⟨own ++ more, rest', rfl, by simp, h⟩
        · rintro ⟨rows, rest, rfl, rfl, h⟩
          exact ⟨more ++ rest, by simp, more, rest, rfl, rfl, h⟩

theorem returns_page (hBuffer : S.buffer = []) (hReply : s.curReply = [])
    (hFetch : ∀ key ∈ s.keys, P.fetch s.vconn key () = (.value (answer key), ())) :
    Returns P S s () out ↔ ∃ rows rest, gather answer s.keys = .ok rows ∧ out = rows ++ rest ∧
      Returns P S { s with keys := [] } () rest :=
  returns_keys hBuffer hReply hFetch

/-! ## All pages -/

theorem step_idle (hIdle : s.Idle) : s.step P S () = s.refill P S () := by
  rw [step, hIdle.1, hIdle.2]

theorem step_over (hIdle : s.Idle) (hStrategy : s.strategy ≠ .keyspace) (hPage : s.keysPage = none)
    (hNone : s.redirected = []) (hBuffer : S.buffer = []) : s.step P S () = (.done s, ()) := by
  rw [step_idle hIdle, refill, if_pos (.inr hStrategy), hPage]
  simp only [retry, if_pos hNone, drainTail, if_pos hBuffer]

theorem step_hop (hIdle : s.Idle) (hStrategy : s.strategy ≠ .keyspace) (hPlan : s.planKeys ≠ [])
    (hStarted : s.started = true) (hFanout : s.fanout = true)
    (hLt : s.curNode + 1 < s.nodes.length) :
    s.step P S () = (.next (s.attach (s.curNode + 1)).takeKeys, ()) := by
  have hPage : s.keysPage = some (s.attach (s.curNode + 1)).takeKeys :=
    keysPage_eq_some.mpr ⟨hPlan, .inr ⟨hStarted, hFanout, hLt, rfl⟩⟩
  rw [step_idle hIdle, refill, if_pos (.inr hStrategy), hPage]

variable {strategy : Strategy} {keys : List Bytes}

theorem returns_no_keys (topo : Topology) (hStrategy : strategy ≠ .keyspace) (hBuffer : S.buffer = []) :
    Returns P S (fresh strategy [] topo) () out ↔ out = [] := by
  refine returns_done_iff (step_over ?_ ?_ ?_ ?_ hBuffer)
  all_goals cases topo
  all_goals first | exact hStrategy | exact ⟨rfl, rfl⟩ | rfl

theorem returns_plain {node : Node} (hStrategy : strategy ≠ .keyspace) (hBuffer : S.buffer = [])
    (hFetch : ∀ key ∈ keys, P.fetch node key () = (.value (answer key), ())) :
    Returns P S (fresh strategy keys (.plain node)) () out ↔ gather answer keys = .ok out := by
  by_cases hKeys : keys = []
  · subst hKeys
    rw [returns_no_keys _ hStrategy hBuffer, gather, Except.ok.injEq, eq_comm]
  have hTake := step_takeKeys (P := P) (S := S) (s := fresh strategy keys (.plain node)) ⟨rfl, rfl⟩
    hStrategy hKeys rfl
  have hOver : ({ (fresh strategy keys (.plain node)).takeKeys with keys := [] } : ScanState).step P S ()
      = (.done { (fresh strategy keys (.plain node)).takeKeys with keys := [] }, ()) :=
    step_over ⟨rfl, rfl⟩ hStrategy (keysPage_eq_none.mpr (.inr ⟨rfl, .inl rfl⟩)) rfl hBuffer
  rw [returns_next_iff hTake, returns_page hBuffer rfl hFetch]
  simp only [returns_done_iff hOver]
  simp [takeKeys, fresh]

/-- What the nodes are asked for: each its keys. -/
def agenda (map : SlotMap) (keys : List Bytes) (nodes : List Node) : List (Node × Bytes) :=
  nodes.flatMap fun node => (keys.filter (asks (some map) node)).map (node, ·)

theorem agenda_cons (map : SlotMap) (keys : List Bytes) (node : Node) (nodes : List Node) :
    agenda map keys (node :: nodes) = agenda map keys [node] ++ agenda map keys nodes := by
  simp [agenda]

theorem returns_node {map : SlotMap} {answer : Node × Bytes → Except ReadError (List Row)} {i : Nat}
    {node : Node} (hStrategy : strategy ≠ .keyspace) (hBuffer : S.buffer = []) (hKeys : keys ≠ [])
    (hNode : map.nodes[i]? = some node)
    (hFetch : ∀ key ∈ keys, asks (some map) node key = true →
      P.fetch node key () = (.value (answer (node, key)), ())) :
    Returns P S ((fresh strategy keys (.cluster map)).attach i) () out ↔
      ∃ rows rest, gather answer (agenda map keys [node]) = .ok rows ∧ out = rows ++ rest ∧
        Returns P S { ((fresh strategy keys (.cluster map)).attach i).takeKeys with keys := [] } ()
          rest := by
  have hTake : ((fresh strategy keys (.cluster map)).attach i).step P S () =
      (.next ((fresh strategy keys (.cluster map)).attach i).takeKeys, ()) :=
    step_takeKeys ⟨rfl, rfl⟩ hStrategy hKeys rfl
  have hVconn : ((fresh strategy keys (.cluster map)).attach i).vconn = node := attach_vconn hNode
  have hPage : ((fresh strategy keys (.cluster map)).attach i).takeKeys.keys =
      keys.filter (asks (some map) node) := by
    simp only [takeKeys, keysForNode, show ((fresh strategy keys (.cluster map)).attach i).fanout = true
      from rfl, if_true, show ((fresh strategy keys (.cluster map)).attach i).nodes[i]? = some node
      from hNode, show ((fresh strategy keys (.cluster map)).attach i).curNode = i from rfl]
    rfl
  have hGather : gather (fun key => answer (node, key)) (keys.filter (asks (some map) node)) =
      gather answer (agenda map keys [node]) := by
    rw [agenda, List.flatMap_singleton, gather_map]
  refine (returns_next_iff hTake).trans ?_
  rw [← hGather, ← hPage]
  apply returns_page hBuffer rfl
  intro key hKey
  rw [hPage, List.mem_filter] at hKey
  exact hVconn ▸ hFetch key hKey.1 hKey.2

/-- A lookup on a cluster, from one of its nodes on. -/
theorem returns_nodes {map : SlotMap} {answer : Node × Bytes → Except ReadError (List Row)}
    (hStrategy : strategy ≠ .keyspace) (hBuffer : S.buffer = []) (hKeys : keys ≠ [])
    (hFetch : ∀ node ∈ map.nodes, ∀ key ∈ keys, asks (some map) node key = true →
      P.fetch node key () = (.value (answer (node, key)), ())) {i : Nat} (hi : i < map.nodes.length) :
    Returns P S ((fresh strategy keys (.cluster map)).attach i) () out ↔
      gather answer (agenda map keys (map.nodes.drop i)) = .ok out := by
  -- The induction is on the number of nodes that follow.
  generalize hLeft : map.nodes.length - (i + 1) = left
  induction left generalizing i out with
  | zero =>
    have hLast : map.nodes.drop i = [map.nodes[i]] := by
      rw [List.drop_eq_getElem_cons hi, List.drop_of_length_le (by omega)]
    have hOver : ({ ((fresh strategy keys (.cluster map)).attach i).takeKeys with keys := [] } :
        ScanState).step P S () =
          (.done { ((fresh strategy keys (.cluster map)).attach i).takeKeys with keys := [] }, ()) := by
      refine step_over ⟨rfl, rfl⟩ hStrategy (keysPage_eq_none.mpr (.inr ⟨rfl, .inr ?_⟩)) rfl hBuffer
      show map.nodes.length ≤ i + 1
      omega
    refine (returns_node hStrategy hBuffer hKeys (List.getElem?_eq_getElem hi)
      (hFetch _ (List.getElem_mem hi))).trans ?_
    rw [hLast]
    simp [returns_done_iff hOver]
  | succ left ih =>
    have hNext : i + 1 < map.nodes.length := by omega
    have hDrop : map.nodes.drop i = map.nodes[i] :: map.nodes.drop (i + 1) :=
      List.drop_eq_getElem_cons hi
    have hHop : ({ ((fresh strategy keys (.cluster map)).attach i).takeKeys with keys := [] } :
        ScanState).step P S () =
          (.next ((fresh strategy keys (.cluster map)).attach (i + 1)).takeKeys, ()) := by
      rw [← attach_attach (a := i)
        (show i + 1 < (fresh strategy keys (.cluster map)).nodes.length from hNext)]
      exact step_hop ⟨rfl, rfl⟩ hStrategy hKeys rfl rfl hNext
    have hTake : ((fresh strategy keys (.cluster map)).attach (i + 1)).step P S () =
        (.next ((fresh strategy keys (.cluster map)).attach (i + 1)).takeKeys, ()) :=
      step_takeKeys ⟨rfl, rfl⟩ hStrategy hKeys rfl
    refine (returns_node hStrategy hBuffer hKeys (List.getElem?_eq_getElem hi)
      (hFetch _ (List.getElem_mem hi))).trans ?_
    simp only [returns_next_iff hHop, ← returns_next_iff hTake, ih hNext (by omega)]
    rw [hDrop, agenda_cons map keys _ (map.nodes.drop (i + 1)), gather_append_ok]

theorem returns_cluster {map : SlotMap} {answer : Node × Bytes → Except ReadError (List Row)}
    (hStrategy : strategy ≠ .keyspace) (hBuffer : S.buffer = [])
    (hFetch : ∀ node ∈ map.nodes, ∀ key ∈ keys, asks (some map) node key = true →
      P.fetch node key () = (.value (answer (node, key)), ())) :
    Returns P S (fresh strategy keys (.cluster map)) () out ↔
      gather answer (agenda map keys map.nodes) = .ok out := by
  by_cases hKeys : keys = []
  · subst hKeys
    have hNone : agenda map [] map.nodes = [] := by simp [agenda]
    rw [returns_no_keys _ hStrategy hBuffer, hNone, gather, Except.ok.injEq, eq_comm]
  · rw [← fresh_attach_zero, returns_nodes hStrategy hBuffer hKeys hFetch
      (List.length_pos_iff.mpr map.nonempty), List.drop_zero]

end ValkeyFdw.ScanState
