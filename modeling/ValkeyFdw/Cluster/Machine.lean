import ValkeyFdw.Cluster.Slots
import ValkeyFdw.Scan.Overlay

/-!
# The scan as a machine

A scan asks its server for pages of keys or takes the keys its plan named, and
fetches the rows of each key. On a cluster it visits the primaries one after
another, collects the keys that a redirect sent elsewhere, and asks for those
again in a retry pass with a refreshed map. `step` is one turn of its loop; what
the servers answer, and what lies in memory behind a copied key, is a `Peer`.
`Reach` are the states a scan can come to, with the rows it has returned and the
number of retry passes it has begun.
-/

namespace ValkeyFdw

/-! ## What the servers answer -/

/-- The errors of a scan. -/
inductive ScanError where
  | gaveUp (keys : Nat)
  | failed (text : Bytes)
  | read (e : ReadError)
deriving DecidableEq

/-- The answer to the fetch of a key: an error reply, or what its value decodes to. -/
inductive ValueReply where
  | error (text : Bytes)
  | value (rows : Except ReadError (List Row))

def ValueReply.isRedirect : ValueReply → Bool
  | .error text => ValkeyFdw.isRedirect text
  | .value _ => false

/-- The servers as a scan meets them. Their state `ω` may change with every call. -/
structure Peer (ω : Type) where
  shards : Node → ω → Except ScanError SlotMap × ω
  /-- `SCAN` or `SSCAN` from a cursor: the next cursor and a page of keys. -/
  scan : Node → Bytes → ω → Except ScanError (Bytes × List Bytes) × ω
  fetch : Node → Bytes → ω → ValueReply × ω
  /-- What lies in memory behind the allocation of a copied key. -/
  beyond : ω → Nat → UInt8

/-! ## The state of a scan -/

/-- The access path of a scan. -/
inductive Strategy where
  | keyspace
  | keys
  | singleton
  | keyParam
deriving DecidableEq

/-- The state of a scan. -/
structure ScanState where
  strategy : Strategy
  vconn : Node
  fanout : Bool
  nodes : List Node
  curNode : Nat
  passMap : Option SlotMap
  /-- The backend's copy of the slot map, or none when it is invalidated. -/
  cached : Option SlotMap
  cursor : Option Bytes
  started : Bool
  keys : List Bytes
  planKeys : List Bytes
  redirected : List Bytes
  redirectPasses : Nat
  retryPass : Bool
  /-- The rows of the current key that have not been returned. -/
  curReply : List Row
  seen : List Bytes
  /-- What is left of the tail, once the server's keys are exhausted. -/
  tail : Option (List Row)

/-- A plain server, or a cluster by the map a scan of it begins with. -/
inductive Topology where
  | plain (node : Node)
  | cluster (map : SlotMap)

namespace ScanState

/-- Point the scan at a node; its traversal begins anew. -/
def attach (s : ScanState) (n : Nat) : ScanState :=
  { s with
    curNode := n
    vconn := (s.nodes[n]?).getD s.vconn
    started := false
    cursor := none }

/-- A scan that has not begun. -/
def fresh (strategy : Strategy) (planKeys : List Bytes) : Topology → ScanState
  | .plain node =>
    { strategy, vconn := node, fanout := false, nodes := [], curNode := 0, passMap := none,
      cached := none, cursor := none, started := false, keys := [], planKeys, redirected := [],
      redirectPasses := 0, retryPass := false, curReply := [], seen := [], tail := none }
  | .cluster map =>
    attach
      { strategy, vconn := map.nodes.head map.nonempty, fanout := true, nodes := map.nodes,
        curNode := 0, passMap := some map, cached := some map, cursor := none, started := false,
        keys := [], planKeys, redirected := [], redirectPasses := 3, retryPass := false,
        curReply := [], seen := [], tail := none } 0

/-- The next primary, or none when all have been visited. -/
def advance (s : ScanState) : Option ScanState :=
  if s.fanout = false ∨ s.nodes.length ≤ s.curNode + 1 then none
  else some (s.attach (s.curNode + 1))

/-- Whether a node is asked for a key: it is not known to be another's. -/
def asks (map : Option SlotMap) (node : Node) (key : Bytes) : Bool :=
  match map.bind fun map => map.route key with
  | none => true
  | some owner => owner = node

/-- The plan's keys that the current node is asked for. -/
def keysForNode (s : ScanState) : List Bytes :=
  match s.nodes[s.curNode]? with
  | none => []
  | some node => s.planKeys.filter (asks s.passMap node)

/-- Take the page of the current node. -/
def takeKeys (s : ScanState) : ScanState :=
  { s with
    started := true
    keys := if s.fanout then s.keysForNode else s.planKeys }

/-- One page of the keys the plan named, or none when every node has had its turn. -/
def keysPage (s : ScanState) : Option ScanState :=
  if s.planKeys = [] then none
  else if s.started = false then some s.takeKeys
  else if s.fanout then s.advance.map takeKeys
  else none

end ScanState

/-- The text of the cursor that begins and ends a traversal. -/
def cursorZero : Bytes := [0x30]

/-- The bytes up to the first zero byte, as the C string functions see them. -/
def cstr (b : Bytes) : Bytes := b.takeWhile (· ≠ 0)

/-- A key as it is read back from a copy that ends at the first zero byte: `beyond`
is the memory behind the copy. -/
def copyKey (beyond : Nat → UInt8) (key : Bytes) : Bytes :=
  (List.range key.length).map fun i => ((cstr key ++ [0])[i]?).getD (beyond i)

/-! ## One turn of the loop -/

/-- How a turn ends. -/
inductive Step where
  | row (row : Row) (s : ScanState)
  | next (s : ScanState)
  | pass (s : ScanState)
  | done (s : ScanState)
  | raised (e : ScanError)

namespace ScanState

/-- Remember a key that is elsewhere. `MOVED` drops the backend's map as well. -/
def noteRedirect (s : ScanState) (beyond : Nat → UInt8) (text key : Bytes) : ScanState :=
  { s with
    redirected := s.redirected ++ [copyKey beyond key]
    cached := if redirectIsAsk text then s.cached else none }

/-- The answer to the fetch of one key. -/
def oneKey (S : Scan) (s : ScanState) (beyond : Nat → UInt8) (key : Bytes) (reply : ValueReply) :
    Step :=
  match S.applyOverlay s.seen key with
  | (.replace row, seen) => .row row { s with seen := seen }
  | (.hide, seen) => .next { s with seen := seen }
  | (.pass, seen) =>
    match reply with
    | .error text =>
      if isRedirect text then .next ({ s with seen := seen }.noteRedirect beyond text key)
      else if (ascii "WRONGTYPE").isPrefixOf text then .next { s with seen := seen }
      else .raised (.failed text)
    | .value (.error e) => .raised (.read e)
    | .value (.ok rows) => .next { s with seen := seen, curReply := rows }

/-- The tail: what the transaction created itself, and then the end of the scan. -/
def drainTail (S : Scan) (s : ScanState) : Step :=
  if S.buffer = [] then .done s
  else match s.tail.getD (S.inject S.buffer s.seen) with
    | [] => .done { s with tail := some [] }
    | row :: rest => .row row { s with tail := some rest }

/-- Point a retry pass at the first node of the map. -/
def repoint (s : ScanState) (map : SlotMap) : ScanState :=
  attach { s with passMap := some map, cached := some map, nodes := map.nodes } 0

/-- The state in which a retry pass asks for the keys that were redirected. -/
def owedPass (s : ScanState) : ScanState :=
  { s with
    redirectPasses := s.redirectPasses - 1
    planKeys := s.redirected
    redirected := []
    retryPass := true
    started := false }

variable {ω : Type} (P : Peer ω)

/-- Begin a pass over the redirected keys, if any are owed one. -/
def retry (S : Scan) (s : ScanState) (w : ω) : Step × ω :=
  if s.redirected = [] then (s.drainTail S, w)
  else if s.redirectPasses = 0 then (.raised (.gaveUp s.redirected.length), w)
  else if s.fanout = false then (.pass s.owedPass, w)
  else match s.cached with
    | some map => (.pass (s.owedPass.repoint map), w)
    | none =>
      match P.shards s.vconn w with
      | (.ok map, w) => (.pass (s.owedPass.repoint map), w)
      | (.error e, w) => (.raised e, w)

/-- Ask for a page of keys. -/
def scanPage (s : ScanState) (w : ω) : Step × ω :=
  match P.scan s.vconn (if s.started then s.cursor.getD cursorZero else cursorZero) w with
  | (.error e, w) => (.raised e, w)
  | (.ok (cursor, keys), w) =>
    (.next { s with
      started := true
      cursor := if cursor = cursorZero then none else some (cstr cursor)
      keys := keys }, w)

/-- Make more keys available, or end the pass. -/
def refill (S : Scan) (s : ScanState) (w : ω) : Step × ω :=
  if s.retryPass = true ∨ s.strategy ≠ .keyspace then
    match s.keysPage with
    | some s => (.next s, w)
    | none => s.retry P S w
  else if s.started = true ∧ s.cursor = none then
    match s.advance with
    | some s => (.next s, w)
    | none => s.retry P S w
  else s.scanPage P w

/-- One turn of the loop of a scan. -/
def step (S : Scan) (s : ScanState) (w : ω) : Step × ω :=
  match s.curReply with
  | row :: rest => (.row row { s with curReply := rest }, w)
  | [] =>
    match s.keys with
    | [] => s.refill P S w
    | key :: keys =>
      match P.fetch s.vconn key w with
      | (reply, w) => ({ s with keys := keys }.oneKey S (P.beyond w) key reply, w)

/-- The states a scan comes to from `s₀`: with the rows it has returned, and the
number of retry passes it has begun. -/
inductive Reach (S : Scan) (s₀ : ScanState) (w₀ : ω) : List Row → Nat → ScanState → ω → Prop
  | start : Reach S s₀ w₀ [] 0 s₀ w₀
  | row {rows n s w row s' w'} : Reach S s₀ w₀ rows n s w → s.step P S w = (.row row s', w') →
      Reach S s₀ w₀ (rows ++ [row]) n s' w'
  | next {rows n s w s' w'} : Reach S s₀ w₀ rows n s w → s.step P S w = (.next s', w') →
      Reach S s₀ w₀ rows n s' w'
  | pass {rows n s w s' w'} : Reach S s₀ w₀ rows n s w → s.step P S w = (.pass s', w') →
      Reach S s₀ w₀ rows (n + 1) s' w'

/-- The scan ends without an error, having returned the rows. -/
def Ends (S : Scan) (s₀ : ScanState) (w₀ : ω) (rows : List Row) (n : Nat) (w : ω) : Prop :=
  ∃ s s', Reach P S s₀ w₀ rows n s w ∧ s.step P S w = (.done s', w)

/-! ## What a turn can do -/

/-- The keys come from the plan, or from a retry pass. -/
def Keyed (s : ScanState) : Prop := s.retryPass = true ∨ s.strategy ≠ .keyspace

instance (s : ScanState) : Decidable s.Keyed :=
  inferInstanceAs (Decidable (s.retryPass = true ∨ s.strategy ≠ .keyspace))

/-- The keys and rows at hand have been used up. -/
def Idle (s : ScanState) : Prop := s.curReply = [] ∧ s.keys = []

/-- The pass is over: every node has had its turn. -/
def PassOver (s : ScanState) : Prop :=
  (s.Keyed ∧ s.keysPage = none) ∨
    (¬s.Keyed ∧ s.started = true ∧ s.cursor = none ∧ s.advance = none)

/-- The cursor the next page is asked for with. -/
def sent (s : ScanState) : Bytes := if s.started then s.cursor.getD cursorZero else cursorZero

/-- The turns of a scan, with the condition of each. -/
inductive Turn (S : Scan) (s : ScanState) (w : ω) : Step → ω → Prop
  | emit {row rest} (h : s.curReply = row :: rest) :
      Turn S s w (.row row { s with curReply := rest }) w
  | take {key keys reply w'} (hReply : s.curReply = []) (hKeys : s.keys = key :: keys)
      (hFetch : P.fetch s.vconn key w = (reply, w')) :
      Turn S s w ({ s with keys := keys }.oneKey S (P.beyond w') key reply) w'
  | page {s'} (hIdle : s.Idle) (hKeyed : s.Keyed) (h : s.keysPage = some s') : Turn S s w (.next s') w
  | advance {s'} (hIdle : s.Idle) (hWalk : ¬s.Keyed) (hStarted : s.started = true)
      (hCursor : s.cursor = none) (h : s.advance = some s') : Turn S s w (.next s') w
  | scan {cursor keys w'} (hIdle : s.Idle) (hWalk : ¬s.Keyed)
      (hMore : ¬(s.started = true ∧ s.cursor = none))
      (hScan : P.scan s.vconn s.sent w = (.ok (cursor, keys), w')) :
      Turn S s w (.next { s with
        started := true
        cursor := if cursor = cursorZero then none else some (cstr cursor)
        keys := keys }) w'
  | finish (hIdle : s.Idle) (hOver : s.PassOver) (h : s.redirected = []) :
      Turn S s w (s.drainTail S) w
  | passPlain (hIdle : s.Idle) (hOver : s.PassOver) (h : s.redirected ≠ [])
      (hBudget : s.redirectPasses ≠ 0) (hPlain : s.fanout = false) :
      Turn S s w (.pass s.owedPass) w
  | passCached {map} (hIdle : s.Idle) (hOver : s.PassOver) (h : s.redirected ≠ [])
      (hBudget : s.redirectPasses ≠ 0) (hFanout : s.fanout = true) (hMap : s.cached = some map) :
      Turn S s w (.pass (s.owedPass.repoint map)) w
  | passLoaded {map w'} (hIdle : s.Idle) (hOver : s.PassOver) (h : s.redirected ≠ [])
      (hBudget : s.redirectPasses ≠ 0) (hFanout : s.fanout = true) (hMap : s.cached = none)
      (hLoad : P.shards s.vconn w = (.ok map, w')) :
      Turn S s w (.pass (s.owedPass.repoint map)) w'
  | raised {e w'} (hIdle : s.Idle) : Turn S s w (.raised e) w'

variable {P} {S : Scan} {s s' : ScanState} {w w' : ω}

theorem retry_turn (hIdle : s.Idle) (hOver : s.PassOver) :
    Turn P S s w (s.retry P S w).1 (s.retry P S w).2 := by
  unfold retry
  split_ifs with hNone hBudget hPlain
  · exact .finish hIdle hOver hNone
  · exact .raised hIdle
  · exact .passPlain hIdle hOver hNone hBudget hPlain
  · have hFanout : s.fanout = true := by simpa using hPlain
    cases hMap : s.cached with
    | some map => exact .passCached hIdle hOver hNone hBudget hFanout hMap
    | none =>
      rcases hLoad : P.shards s.vconn w with ⟨_ | map, w'⟩
      · exact .raised hIdle
      · exact .passLoaded hIdle hOver hNone hBudget hFanout hMap hLoad

theorem scanPage_turn (hIdle : s.Idle) (hWalk : ¬s.Keyed)
    (hMore : ¬(s.started = true ∧ s.cursor = none)) :
    Turn P S s w (s.scanPage P w).1 (s.scanPage P w).2 := by
  unfold scanPage
  rcases hScan : P.scan s.vconn s.sent w with ⟨_ | ⟨cursor, keys⟩, w'⟩
  · rw [sent] at hScan
    rw [hScan]
    exact .raised hIdle
  · have hScan' := hScan
    rw [sent] at hScan
    rw [hScan]
    exact .scan hIdle hWalk hMore hScan'

theorem refill_turn (hIdle : s.Idle) :
    Turn P S s w (s.refill P S w).1 (s.refill P S w).2 := by
  unfold refill
  split_ifs with hKeyed hEnd
  · cases hPage : s.keysPage with
    | some s' => exact .page hIdle hKeyed hPage
    | none => exact retry_turn hIdle (.inl ⟨hKeyed, hPage⟩)
  · cases hAdvance : s.advance with
    | some s' => exact .advance hIdle hKeyed hEnd.1 hEnd.2 hAdvance
    | none => exact retry_turn hIdle (.inr ⟨hKeyed, hEnd.1, hEnd.2, hAdvance⟩)
  · exact scanPage_turn hIdle hKeyed hEnd

/-- Every turn is one of those listed. -/
theorem step_turn (P : Peer ω) (S : Scan) (s : ScanState) (w : ω) :
    Turn P S s w (s.step P S w).1 (s.step P S w).2 := by
  unfold step
  split
  · rename_i row rest hReply
    exact .emit hReply
  · rename_i hReply
    split
    · rename_i hKeys
      exact refill_turn ⟨hReply, hKeys⟩
    · rename_i key keys hKeys
      exact .take hReply hKeys rfl

theorem turn_of_step {r : Step} (h : s.step P S w = (r, w')) : Turn P S s w r w' := by
  have hTurn := step_turn P S s w
  rwa [h] at hTurn

/-! ## The next node -/

theorem advance_eq_some : s.advance = some s' ↔
    s.fanout = true ∧ s.curNode + 1 < s.nodes.length ∧ s' = s.attach (s.curNode + 1) := by
  unfold advance
  split_ifs with h
  · simp only [false_iff]
    rintro ⟨hFanout, hLt, -⟩
    rcases h with h | h
    · simp [hFanout] at h
    · omega
  · rw [not_or, Bool.not_eq_false, not_le] at h
    simp [h, eq_comm]

theorem advance_eq_none : s.advance = none ↔
    s.fanout = false ∨ s.nodes.length ≤ s.curNode + 1 := by
  unfold advance
  split_ifs with h
  · simp [h]
  · simp [h]

theorem keysPage_eq_some : s.keysPage = some s' ↔ s.planKeys ≠ [] ∧
    ((s.started = false ∧ s' = s.takeKeys) ∨
      (s.started = true ∧ s.fanout = true ∧ s.curNode + 1 < s.nodes.length ∧
        s' = (s.attach (s.curNode + 1)).takeKeys)) := by
  unfold keysPage
  split_ifs with hNil hStarted hFanout
  · simp [hNil]
  · constructor
    · intro h
      exact ⟨hNil, .inl ⟨hStarted, (Option.some.inj h).symm⟩⟩
    · rintro ⟨-, ⟨-, rfl⟩ | ⟨h, -⟩⟩
      · rfl
      · simp [hStarted] at h
  · simp only [Option.map_eq_some_iff, advance_eq_some]
    constructor
    · rintro ⟨t, ⟨-, hLt, rfl⟩, rfl⟩
      exact ⟨hNil, .inr ⟨by simpa using hStarted, hFanout, hLt, rfl⟩⟩
    · rintro ⟨-, ⟨h, -⟩ | ⟨-, -, hLt, rfl⟩⟩
      · exact absurd h hStarted
      · exact ⟨_, ⟨hFanout, hLt, rfl⟩, rfl⟩
  · simp [hNil, hStarted, hFanout]

theorem keysPage_eq_none : s.keysPage = none ↔ s.planKeys = [] ∨
    (s.started = true ∧ (s.fanout = false ∨ s.nodes.length ≤ s.curNode + 1)) := by
  unfold keysPage
  split_ifs with hNil hStarted hFanout
  · simp [hNil]
  · simp [hNil, hStarted]
  · simp [hNil, hStarted, advance_eq_none]
  · simp [hNil, hStarted, hFanout]

theorem attach_vconn {n : Nat} {node : Node} (h : s.nodes[n]? = some node) :
    (s.attach n).vconn = node := by
  simp [attach, h]

end ScanState

/-- A scan in a transaction that has written nothing. -/
def plainScan : Scan := ⟨1, 0, [], fun _ => .ok []⟩

end ValkeyFdw
