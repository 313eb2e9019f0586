import ValkeyFdw.Cluster.Complete
import ValkeyFdw.Cluster.Lookup
import ValkeyFdw.Lib.Rounds

/-!
# A cluster lookup reads each named key once

The keys that the plan named are partitioned over the primaries by the map of the
pass, the redirected ones are owed to a retry pass, and that pass partitions them
anew by its own map. The passes of a lookup are rounds over the named keys: each asks
every owed key of one node, and what a pass redirects is owed to the next
(`lookup_reads_once`). The transaction has written nothing.
-/

namespace ValkeyFdw

open Gather Rounds ScanState

/-! ## Fetches -/

/-- A fetch and its answer. -/
structure Fetch where
  node : Node
  key : Bytes
  reply : ValueReply

def Fetch.redirected (f : Fetch) : Bool := f.reply.isRedirect

/-- The rows of an answer. -/
def ValueReply.rows : ValueReply → List Row
  | .value (.ok rows) => rows
  | _ => []

def Call.fetch? : Call → Option Fetch
  | .fetched node key reply => some ⟨node, key, reply⟩
  | _ => none

def fetches (log : List Call) : List Fetch := log.filterMap Call.fetch?

/-- The passes of a lookup, with the keys that are owed after them. -/
abbrev Passes (keys : List Bytes) (passes : List (List Fetch)) (left : List Bytes) : Prop :=
  Series Fetch.key Fetch.redirected keys passes left

/-- Every key's slot has an owner. -/
def SlotMap.Owns (map : SlotMap) (keys : List Bytes) : Prop :=
  ∀ key ∈ keys, (map.route key).isSome

/-! ## The pages of a pass -/

/-- The keys asked of some nodes, node after node. -/
def pages (map : Option SlotMap) (keys : List Bytes) (nodes : List Node) : List Bytes :=
  nodes.flatMap fun node => keys.filter (asks map node)

theorem pages_subset {map : Option SlotMap} {keys : List Bytes} {nodes : List Node} :
    pages map keys nodes ⊆ keys := by
  intro key hKey
  obtain ⟨_, _, hMem⟩ := List.mem_flatMap.mp hKey
  exact (List.mem_filter.mp hMem).1

theorem pages_take_succ {map : Option SlotMap} {keys : List Bytes} {nodes : List Node} {i : Nat} :
    pages map keys (nodes.take (i + 1)) =
      pages map keys (nodes.take i) ++ pages map keys nodes[i]?.toList := by
  rw [List.take_add_one, pages, List.flatMap_append]
  rfl

theorem SlotMap.Owns.asks_iff {map : SlotMap} {keys : List Bytes} (h : map.Owns keys) {key : Bytes}
    (hKey : key ∈ keys) {node : Node} :
    asks (some map) node key = true ↔ map.route key = some node := by
  obtain ⟨owner, hOwner⟩ := Option.isSome_iff_exists.mp (h key hKey)
  simp [asks, hOwner]

/-- Where every slot has an owner, each key is asked of exactly one node. -/
theorem SlotMap.Owns.pages_perm {map : SlotMap} {keys : List Bytes} (h : map.Owns keys)
    (hKeys : keys.Nodup) : (pages (some map) keys map.nodes).Perm keys := by
  refine shared_perm map.nodup hKeys (fun key hKey => ?_) fun key hKey node node' hAsks hAsks' => ?_
  · obtain ⟨owner, hOwner⟩ := Option.isSome_iff_exists.mp (h key hKey)
    exact ⟨owner, SlotMap.route_mem hOwner, (h.asks_iff hKey).mpr hOwner⟩
  · exact Option.some.inj (((h.asks_iff hKey).mp hAsks).symm.trans ((h.asks_iff hKey).mp hAsks'))

/-! ## The invariant -/

/-- What holds of a lookup and its calls in every state: `passes` are over, `cur` is
what the current one has fetched. -/
structure ScanState.Once (keys : List Bytes) (rows : List Row) (n : Nat) (s : ScanState)
    (log : List Call) (passes : List (List Fetch)) (cur : List Fetch) : Prop where
  strategy : s.strategy ≠ .keyspace
  fanout : s.fanout = true
  passMap : ∃ map, s.passMap = some map ∧ s.nodes = map.nodes ∧ map.Owns keys
  cached : ∀ map, s.cached = some map → map.Owns keys
  fetched : fetches log = passes.flatten ++ cur
  count : passes.length = n
  series : Passes keys passes s.planKeys
  redirected : s.redirected = owed Fetch.key Fetch.redirected cur
  /-- What was fetched and what is on the page are the pages of the nodes so far. -/
  place : cur.map Fetch.key ++ s.keys =
    pages s.passMap s.planKeys (s.nodes.take (if s.started then s.curNode + 1 else 0))
  begins : s.started = false → s.curNode = 0
  returned : rows ++ s.curReply = (fetches log).flatMap (·.reply.rows)

/-- What an ended lookup has done. -/
structure ReadOnce (keys : List Bytes) (rows : List Row) (n : Nat) (log : List Call) : Prop where
  passes : ∃ passes, passes.length = n + 1 ∧ fetches log = passes.flatten ∧ Passes keys passes []
  returned : rows = (fetches log).flatMap (·.reply.rows)

namespace ScanState

variable {ω : Type} {P : Peer ω} {S : Scan} {s s' : ScanState} {w w' : ω} {log log' : List Call}
  {keys : List Bytes} {rows : List Row} {n : Nat} {passes : List (List Fetch)} {cur : List Fetch}

theorem keysForNode_eq : s.keysForNode = pages s.passMap s.planKeys s.nodes[s.curNode]?.toList := by
  unfold keysForNode pages
  cases s.nodes[s.curNode]? <;> simp

theorem Once.keyed (h : s.Once keys rows n log passes cur) : s.Keyed := .inr h.strategy

/-- What the current pass has fetched is owed to it, each key once. -/
theorem Once.cur_subperm (h : s.Once keys rows n log passes cur) (hKeys : keys.Nodup) :
    (cur.map Fetch.key).Subperm s.planKeys := by
  obtain ⟨map, hMap, hNodes, hOwns⟩ := h.passMap
  have hOwed : map.Owns s.planKeys := fun key hKey => hOwns key (h.series.left_subset hKey)
  have hPerm := hOwed.pages_perm (h.series.left_nodup hKeys)
  have hSub : (cur.map Fetch.key).Sublist (pages s.passMap s.planKeys s.nodes) := by
    refine (List.sublist_append_left _ s.keys).trans ?_
    rw [h.place]
    exact List.Sublist.flatMap (List.take_sublist _ _) _
  rw [hMap, hNodes] at hSub
  exact hSub.subperm.trans hPerm.subperm

/-- At the end of a pass every key that was owed has been asked for. -/
theorem Once.pass_perm (h : s.Once keys rows n log passes cur) (hKeys : keys.Nodup) (hIdle : s.Idle)
    (hOver : s.PassOver) : (cur.map Fetch.key).Perm s.planKeys := by
  have hPlace := h.place
  rw [hIdle.2, List.append_nil] at hPlace
  obtain ⟨map, hMap, hNodes, hOwns⟩ := h.passMap
  have hOwed : map.Owns s.planKeys := fun key hKey => hOwns key (h.series.left_subset hKey)
  rcases hOver with ⟨-, hNone⟩ | ⟨hNot, -⟩
  · rcases keysPage_eq_none.mp hNone with hNil | ⟨hStarted, hFanout | hLast⟩
    · rw [hPlace, hNil]
      simp [pages]
    · simp [h.fanout] at hFanout
    · rw [hPlace, hStarted, if_pos rfl, List.take_of_length_le hLast, hMap, hNodes]
      exact hOwed.pages_perm (h.series.left_nodup hKeys)
  · exact absurd h.keyed hNot

/-- What one turn leaves: the invariant, or the end of a lookup that read each key once. -/
def OnceAfter (keys : List Bytes) (rows : List Row) (n : Nat) (log : List Call) : Step → Prop
  | .row row s => ∃ passes cur, s.Once keys (rows ++ [row]) n log passes cur
  | .next s => ∃ passes cur, s.Once keys rows n log passes cur
  | .pass s => ∃ passes cur, s.Once keys rows (n + 1) log passes cur
  | .done _ => ReadOnce keys rows n log
  | .raised _ => True

variable (h : s.Once keys rows n log passes cur)

include h

theorem Once.emit {row : Row} {rest : List Row} (hReply : s.curReply = row :: rest) :
    Once keys (rows ++ [row]) n { s with curReply := rest } log passes cur where
  strategy := h.strategy
  fanout := h.fanout
  passMap := h.passMap
  cached := h.cached
  fetched := h.fetched
  count := h.count
  series := h.series
  redirected := h.redirected
  place := h.place
  begins := h.begins
  returned := by
    rw [← h.returned, hReply, List.append_assoc]
    rfl

/-- The answer to one key: it moves from the page to what was fetched. -/
theorem Once.fetch {key : Bytes} {rest : List Bytes} (hReply : s.curReply = [])
    (hPage : s.keys = key :: rest) (reply : ValueReply) (seen : List Bytes)
    {cached : Option SlotMap} (hCached : ∀ map, cached = some map → map.Owns keys)
    {redirected : List Bytes}
    (hRedirected : redirected = s.redirected ++ if reply.isRedirect then [key] else []) :
    Once keys rows n { s with
      keys := rest, seen := seen, redirected := redirected, cached := cached, curReply := reply.rows }
      (log ++ [.fetched s.vconn key reply]) passes (cur ++ [⟨s.vconn, key, reply⟩]) where
  strategy := h.strategy
  fanout := h.fanout
  passMap := h.passMap
  cached := hCached
  fetched := by
    rw [fetches, List.filterMap_append, ← List.append_assoc, ← h.fetched]
    rfl
  count := h.count
  series := h.series
  redirected := by
    rw [owed_append, ← h.redirected, hRedirected]
    cases hBack : reply.isRedirect <;> simp [owed, Fetch.redirected, hBack]
  place := by
    rw [List.map_append, List.append_assoc, ← h.place, hPage]
    rfl
  begins := h.begins
  returned := by
    have hRows := h.returned
    rw [hReply, List.append_nil] at hRows
    rw [fetches, List.filterMap_append, List.flatMap_append]
    exact congrArg₂ (· ++ ·) hRows (by simp [Call.fetch?])

theorem Once.take (hBuffer : S.buffer = []) (hText : ∀ key ∈ keys, Clean key)
    (hReply : s.curReply = []) {key : Bytes} {rest : List Bytes} (hPage : s.keys = key :: rest)
    (reply : ValueReply) (beyond : Nat → UInt8) :
    OnceAfter keys rows n (log ++ [.fetched s.vconn key reply])
      ({ s with keys := rest }.oneKey S beyond key reply) := by
  have hKey : key ∈ keys := by
    refine h.series.left_subset (pages_subset (h.place ▸ List.mem_append_right _ ?_))
    rw [hPage]
    exact List.mem_cons_self
  unfold oneKey
  rw [Scan.applyOverlay, if_pos hBuffer]
  dsimp only
  cases reply with
  | value answer =>
    cases answer with
    | error e => trivial
    | ok answer =>
      exact ⟨passes, _, h.fetch hReply hPage (.value (.ok answer)) _ h.cached
        (by simp [ValueReply.isRedirect])⟩
  | error text =>
    dsimp only
    split_ifs with hRedirect hType
    · have hCopy := copyKey_of_clean (hText key hKey) beyond
      have hCached : ∀ map, (if redirectIsAsk text then s.cached else none) = some map →
          map.Owns keys :=
        fun map hMap => h.cached map (by split at hMap <;> [exact hMap; cases hMap])
      have hRedirected : s.redirected ++ [copyKey beyond key] =
          s.redirected ++ if (ValueReply.error text).isRedirect then [key] else [] := by
        simp [ValueReply.isRedirect, hRedirect, hCopy]
      have hFetch := h.fetch hReply hPage (.error text) s.seen hCached hRedirected
      simp only [ValueReply.rows, ← hReply] at hFetch
      exact ⟨passes, _, hFetch⟩
    · have hRedirected : s.redirected =
          s.redirected ++ if (ValueReply.error text).isRedirect then [key] else [] := by
        simp [ValueReply.isRedirect, hRedirect]
      have hFetch := h.fetch hReply hPage (.error text) s.seen h.cached hRedirected
      simp only [ValueReply.rows, ← hReply] at hFetch
      exact ⟨passes, _, hFetch⟩
    · trivial

/-- The page of the next node follows the pages before it. -/
theorem Once.page (hIdle : s.Idle) (hPage : s.keysPage = some s') :
    s'.Once keys rows n log passes cur := by
  have hPlace := h.place
  rw [hIdle.2, List.append_nil] at hPlace
  obtain ⟨-, ⟨hStarted, rfl⟩ | ⟨hStarted, -, hLt, rfl⟩⟩ := keysPage_eq_some.mp hPage
  · refine ⟨h.strategy, h.fanout, h.passMap, h.cached, h.fetched, h.count, h.series, h.redirected, ?_,
      fun hStart => absurd hStart.symm Bool.false_ne_true, h.returned⟩
    rw [hStarted, if_neg (by simp)] at hPlace
    simp only [takeKeys, h.fanout, if_true, keysForNode_eq, pages_take_succ, hPlace,
      h.begins hStarted]
  · refine ⟨h.strategy, h.fanout, h.passMap, h.cached, h.fetched, h.count, h.series, h.redirected, ?_,
      fun hStart => absurd hStart.symm Bool.false_ne_true, h.returned⟩
    rw [hStarted, if_pos rfl] at hPlace
    have hFanout : (s.attach (s.curNode + 1)).fanout = true := h.fanout
    simp only [takeKeys, hFanout, if_true, keysForNode_eq, hPlace]
    exact pages_take_succ.symm

/-- A retry pass owes what the pass before it redirected. -/
theorem Once.repoint (hKeys : keys.Nodup) (hIdle : s.Idle) (hOver : s.PassOver) {map : SlotMap}
    (hMap : map.Owns keys) (hFetches : fetches log' = fetches log) :
    (s.owedPass.repoint map).Once keys rows (n + 1) log' (passes ++ [cur]) [] where
  strategy := h.strategy
  fanout := h.fanout
  passMap := ⟨map, rfl, rfl, hMap⟩
  cached := by
    rintro _ ⟨⟩
    exact hMap
  fetched := by rw [hFetches, h.fetched]; simp
  count := by simp [h.count]
  series := by
    have hSeries := h.series.round (h.pass_perm hKeys hIdle hOver)
    rwa [← h.redirected] at hSeries
  redirected := rfl
  place := hIdle.2
  begins _ := rfl
  returned := hFetches ▸ h.returned

theorem Once.finish (hKeys : keys.Nodup) (hIdle : s.Idle) (hOver : s.PassOver)
    (hNone : s.redirected = []) : ReadOnce keys rows n log where
  passes := by
    refine ⟨passes ++ [cur], by simp [h.count], by simp [h.fetched], ?_⟩
    have hSeries := h.series.round (h.pass_perm hKeys hIdle hOver)
    rwa [← h.redirected, hNone] at hSeries
  returned := by rw [← h.returned, hIdle.1, List.append_nil]

/-- Every turn keeps the invariant, or ends a lookup that read each key once. -/
theorem Once.turn (hBuffer : S.buffer = []) (hKeys : keys.Nodup) (hText : ∀ key ∈ keys, Clean key)
    (hShards : ∀ node w map, (P.shards node w).1 = .ok map → map.Owns keys) {r : Step}
    (hTurn : Turn P.recorded S s (w, log) r (w', log')) : OnceAfter keys rows n log' r := by
  cases hTurn with
  | emit hReply => exact ⟨passes, cur, h.emit hReply⟩
  | take hReply hPage hFetch =>
    cases hFetch
    exact h.take hBuffer hText hReply hPage _ _
  | page hIdle _ hPage => exact ⟨passes, cur, h.page hIdle hPage⟩
  | advance _ hWalk => exact absurd h.keyed hWalk
  | scan _ hWalk => exact absurd h.keyed hWalk
  | finish hIdle hOver hNone =>
    rw [drainTail, if_pos hBuffer]
    exact h.finish hKeys hIdle hOver hNone
  | passPlain _ _ _ _ hPlain => simp [h.fanout] at hPlain
  | passCached hIdle hOver _ _ _ hMap =>
    exact ⟨_, _, h.repoint hKeys hIdle hOver (h.cached _ hMap) rfl⟩
  | passLoaded hIdle hOver _ _ _ _ hLoad =>
    have hMap := hShards s.vconn w _ (congrArg Prod.fst hLoad)
    obtain rfl : log' = log ++ [.shards s.vconn] := (congrArg (fun r => r.2.2) hLoad).symm
    exact ⟨_, _, h.repoint hKeys hIdle hOver hMap (by simp [fetches, Call.fetch?])⟩
  | raised => trivial

omit h

theorem once_fresh {strategy : Strategy} (hStrategy : strategy ≠ .keyspace) {map : SlotMap}
    (hMap : map.Owns keys) :
    (fresh strategy keys (.cluster map)).Once keys [] 0 [] [] [] where
  strategy := hStrategy
  fanout := rfl
  passMap := ⟨map, rfl, rfl, hMap⟩
  cached := by
    rintro _ ⟨⟩
    exact hMap
  fetched := rfl
  count := rfl
  series := .start
  redirected := rfl
  place := rfl
  begins _ := rfl
  returned := rfl

theorem once_of_reach {strategy : Strategy} {map : SlotMap} {w₀ : ω} {x : ω × List Call}
    (h : Reach P.recorded S (fresh strategy keys (.cluster map)) (w₀, []) rows n s x)
    (hStrategy : strategy ≠ .keyspace) (hBuffer : S.buffer = []) (hKeys : keys.Nodup)
    (hText : ∀ key ∈ keys, Clean key) (hMap : map.Owns keys)
    (hShards : ∀ node w map, (P.shards node w).1 = .ok map → map.Owns keys) :
    ∃ passes cur, s.Once keys rows n x.2 passes cur := by
  induction h with
  | start => exact ⟨[], [], once_fresh hStrategy hMap⟩
  | row _ hStep ih | next _ hStep ih | pass _ hStep ih =>
    obtain ⟨passes, cur, hOnce⟩ := ih
    exact hOnce.turn hBuffer hKeys hText hShards (turn_of_step hStep)

end ScanState

/-- A cluster lookup of distinct text keys by maps in which their slots have owners.
At every moment the passes that are over have asked each owed key of one node, the
current one has asked none twice, and no key was asked for again after an answer
other than a redirect. A lookup that ends without an error has taken one such answer
for each named key, and has returned the rows of these answers. -/
theorem lookup_reads_once {ω : Type} (P : Peer ω) (S : Scan) (strategy : Strategy)
    (keys : List Bytes) (map : SlotMap) (w₀ : ω) (hStrategy : strategy ≠ .keyspace)
    (hBuffer : S.buffer = []) (hKeys : keys.Nodup) (hText : ∀ key ∈ keys, 0 ∉ key)
    (hMap : map.Owns keys)
    (hShards : ∀ node w map, (P.shards node w).1 = .ok map → map.Owns keys) :
    (∀ rows n s w log,
      Reach P.recorded S (fresh strategy keys (.cluster map)) (w₀, []) rows n s (w, log) →
      (∃ passes cur left, passes.length = n ∧ fetches log = passes.flatten ++ cur ∧
        Passes keys passes left ∧ (cur.map Fetch.key).Subperm left) ∧
      (fetches log).Pairwise fun f g => f.redirected = false → g.key ≠ f.key) ∧
    ∀ rows n w log,
      Ends P.recorded S (fresh strategy keys (.cluster map)) (w₀, []) rows n (w, log) →
      (∃ passes, passes.length = n + 1 ∧ fetches log = passes.flatten ∧ Passes keys passes []) ∧
      (((fetches log).filter fun f => !f.redirected).map Fetch.key).Perm keys ∧
      rows = (fetches log).flatMap (·.reply.rows) := by
  have hClean : ∀ key ∈ keys, Clean key := fun key hKey hZero =>
    hText key hKey (List.dropLast_subset key hZero)
  refine ⟨fun rows n s w log hReach => ?_, fun rows n w log hEnds => ?_⟩
  · obtain ⟨passes, cur, hOnce⟩ :=
      once_of_reach hReach hStrategy hBuffer hKeys hClean hMap hShards
    have hCur := hOnce.cur_subperm hKeys
    refine ⟨⟨passes, cur, s.planKeys, hOnce.count, hOnce.fetched, hOnce.series, hCur⟩, ?_⟩
    rw [hOnce.fetched]
    exact hOnce.series.pairwise_append hKeys (hOnce.series.pairwise hKeys) hCur
  · obtain ⟨s, s', hReach, hStep⟩ := hEnds
    obtain ⟨passes, cur, hOnce⟩ :=
      once_of_reach hReach hStrategy hBuffer hKeys hClean hMap hShards
    obtain ⟨⟨all, hCount, hFetched, hSeries⟩, hReturned⟩ :=
      hOnce.turn hBuffer hKeys hClean hShards (turn_of_step hStep)
    refine ⟨⟨all, hCount, hFetched, hSeries⟩, ?_, hReturned⟩
    rw [hFetched]
    simpa using hSeries.perm

/-- A map of one primary that serves every slot. -/
def solePrimary (port : Nat) : SlotMap :=
  { primaryAt port with owner := fun _ => some ⟨0, Nat.one_pos⟩ }

/-- The key has moved, and the map that is loaded then serves every slot. -/
def slotsMoved : Peer Unit := { keyMoved with shards := fun _ _ => (.ok (solePrimary 2), ()) }

theorem lookup_reads_once_slotsMoved :
    ∃ log, Ends slotsMoved.recorded plainScan (fresh .keys [[7]] (.cluster (solePrimary 1))) ((), [])
        [[some (.scalar [7])]] 1 ((), log) ∧
      (((fetches log).filter fun f => !f.redirected).map Fetch.key).Perm [[7]] := by
  have hEnds : Ends slotsMoved.recorded plainScan (fresh .keys [[7]] (.cluster (solePrimary 1)))
      ((), []) [[some (.scalar [7])]] 1 ((), _) :=
    ⟨_, _, .row (.next (.next (.pass (.next (.next .start rfl) rfl) rfl) rfl) rfl) rfl, rfl⟩
  exact ⟨_, hEnds, ((lookup_reads_once slotsMoved plainScan .keys [[7]] (solePrimary 1) () nofun rfl
    (List.nodup_singleton _) (by decide) (fun _ _ => rfl)
    (fun _ _ _ h _ _ => by cases h; rfl)).2 _ _ _ _ hEnds).2.1⟩

end ValkeyFdw
