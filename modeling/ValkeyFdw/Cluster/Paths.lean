import Mathlib.Data.List.ReduceOption
import ValkeyFdw.Cluster.Lookup
import ValkeyFdw.Scan.Table

/-!
# The access paths of a table

The planner turns a condition on the key column into a list of keys to fetch:
those an equality or an `IN` list names, the one key of a singleton table, or the
key of the current outer row of a join. The executor rechecks the condition on
what the scan returns. A path agrees with a walk of all of the table's keys, and returns
no row of another key, exactly if the query names every key of the table with a row that
passes, and if no row passes under the other keys it names (`access_path_iff`).
-/

namespace ValkeyFdw

open Gather ScanState

/-! ## Conditions on the key -/

/-- Equality of texts under a collation. -/
structure Collation where
  deterministic : Bool
  equal : Bytes → Bytes → Bool
  /-- Under a deterministic collation equal texts have the same bytes. -/
  exact : deterministic = true → ∀ a b, equal a b = true → a = b

/-- Equality as a condition: a NULL is equal to nothing. -/
def Collation.holds (c : Collation) : Option Bytes → Option Bytes → Bool
  | some a, some b => c.equal a b
  | _, _ => false

/-- A clause of a query: an equality of the key column with a constant, an `IN` list
of constants, or anything else. -/
inductive Clause where
  | eq (c : Collation) (value : Option Bytes)
  | any (c : Collation) (values : Option (List (Option Bytes)))
  | other (passes : Row → Bool)

def Clause.holds (m : TableMap) : Clause → Row → Bool
  | .eq c value, row => c.holds (m.keyText row) value
  | .any c values, row => values.any fun vs => vs.any (c.holds (m.keyText row))
  | .other passes, row => passes row

/-- The clauses on the table alone and, if the planner chose a parameterised path, the
join condition on the key with its value for the current outer row. -/
structure Query where
  clauses : List Clause
  join : Option (Collation × Option Bytes)

/-- The executor's recheck. -/
def Query.passes (query : Query) (m : TableMap) (row : Row) : Bool :=
  (query.clauses.all fun clause => clause.holds m row) &&
    query.join.all fun on => on.1.holds (m.keyText row) on.2

/-- The value of the parameter. -/
def Query.value (query : Query) : Option Bytes := query.join.bind (·.2)

/-! ## The plan -/

/-- Above this many constants an `IN` list is not fetched key by key. -/
def maxKeyList : Nat := 1000

/-- The keys a clause names: it must compare bytes. -/
def Clause.keys : Clause → List Bytes
  | .eq c (some value) => if c.deterministic then [value] else []
  | .any c (some values) =>
    if c.deterministic ∧ values.length ≤ maxKeyList then values.reduceOption else []
  | _ => []

/-- The keys of the first clause that names any. -/
def TableMap.findKeys (m : TableMap) : List Clause → Option (List Bytes)
  | [] => none
  | clause :: clauses =>
    if clause.keys ≠ [] then some (m.refineKeys clause.keys []) else m.findKeys clauses

/-- The access path and the keys that the plan names; none where a vector table is
searched. `pushable` says that the key column is of type `text` or `varchar`. -/
def TableMap.scanPlan (m : TableMap) (pushable : Bool) (query : Query) :
    Option (Strategy × List Bytes) :=
  if m.tabletype = .vector then none
  else if query.join.isSome ∧ pushable then some (.keyParam, [])
  else match m.singletonKey with
    | some key => some (.singleton, [key])
    | none =>
      match if pushable then m.findKeys query.clauses else none with
      | some keys => some (.keys, keys)
      | none => some (.keyspace, [])

/-! ## An unchanging keyspace on its servers -/

/-- A keyspace on one server, or spread over a cluster that serves every slot. -/
inductive Spread where
  | plain (node : Node)
  | cluster (map : SlotMap) (full : ∀ i, (map.owner i).isSome)

namespace Spread

def topology : Spread → Topology
  | .plain node => .plain node
  | .cluster map _ => .cluster map

/-- The server that holds a key. -/
def home : Spread → Bytes → Node
  | .plain node, _ => node
  | .cluster map full, key => map.nodes.get ((map.owner (slot key)).get (full _))

end Spread

section Paths

variable [Listing] [Inputs] (m : TableMap) (now : Nat) (ks : Keyspace) (spread : Spread)

/-- Whether the keyset is asked about a key, and by a server that holds it. Elsewhere
the question is answered with a redirect, which is no answer. -/
def TableMap.membershipAsked (strategy : Strategy) (key : Bytes) : Bool :=
  strategy = .keys && m.keyset.all fun s => spread.home s = spread.home key

/-- The rows a lookup takes for the key's own. -/
def TableMap.lookupRows (strategy : Strategy) (key : Bytes) : Except ReadError (List Row) :=
  m.serverRows now (m.membershipAsked spread strategy key) ks key

/-- The servers answer the fetch of a key where it is held. -/
def TableMap.Serves (strategy : Strategy) (P : Peer Unit) : Prop :=
  ∀ key, P.fetch (spread.home key) key () = (.value (m.lookupRows now ks spread strategy key), ())

/-- A key that is not the table's, although no server has said so. -/
def TableMap.stray (strategy : Strategy) (key : Bytes) : Bool :=
  !m.owns ks key && !(m.membershipAsked spread strategy key &&
    (m.keyset.bind fun s => sets.read (ks s)).isSome)

variable (pushable : Bool) (query : Query)

/-- The query names a key: by the value of its join, by the table's one key, or by a
constant of the first clause that has any to compare bytes with. -/
def TableMap.Names (key : Bytes) : Prop :=
  if query.join.isSome ∧ pushable then
    query.value = some key ∧ m.keyprefix.all (fun p => p.isPrefixOf key) = true
  else match m.singletonKey with
    | some s => key = s
    | none => (∃ before clause after, query.clauses = before ++ clause :: after ∧
        (∀ c ∈ before, c.keys = []) ∧ key ∈ clause.keys) ∧
        m.keyprefix.all (fun p => p.isPrefixOf key) = true

/-- The keyset is asked about a key that a clause names, and is there to answer: a set, on
the server that holds the key. -/
def TableMap.KeysetAnswers (key : Bytes) : Prop :=
  ¬(query.join.isSome ∧ pushable) ∧ m.singletonKey = none ∧
    ∃ s, m.keyset = some s ∧ spread.home s = spread.home key ∧ HoldsType .set (ks s)

/-- The keys that the query names are the table's, as far as there are rows that pass. -/
structure TableMap.Matches (pushable : Bool) (query : Query) : Prop where
  /-- A key of the table with a row that passes is named. -/
  named : ∀ key rows, m.rowsAt now ks key = .ok rows → ∀ row ∈ rows, query.passes m row = true →
    m.Names pushable query key
  /-- A key that is named and not the table's is told apart by the keyset, or what it holds
  can be read and has no row that passes. -/
  owned : ∀ key, m.Names pushable query key → m.owns ks key = false →
    m.KeysetAnswers ks spread pushable query key ∨
      ∃ rows, m.serverRows now false ks key = .ok rows ∧ ∀ row ∈ rows, query.passes m row = false

end Paths

/-! ## What a path fetches -/

section Fetch

variable {m : TableMap} {now : Nat} {ks : Keyspace} {spread : Spread}
  {pushable : Bool} {query : Query} {strategy : Strategy} {keys : List Bytes} {key : Bytes}

theorem TableMap.scanPlan_cases (h : m.scanPlan pushable query = some (strategy, keys))
    (hStrategy : strategy ≠ .keyspace) :
    (strategy = .keyParam ∧ query.join.isSome = true) ∨
    (strategy = .singleton ∧ ∃ s, m.singletonKey = some s ∧ keys = [s]) ∨
    (strategy = .keys ∧ m.singletonKey = none ∧
      ∃ clause ∈ query.clauses, clause.keys ≠ [] ∧ keys = m.refineKeys clause.keys []) := by
  have hFind : ∀ clauses keys, m.findKeys clauses = some keys →
      ∃ clause ∈ clauses, clause.keys ≠ [] ∧ keys = m.refineKeys clause.keys [] := by
    intro clauses keys hKeys
    induction clauses with
    | nil => cases hKeys
    | cons clause clauses ih =>
      rw [findKeys] at hKeys
      split at hKeys
      · rename_i hNames
        cases hKeys
        exact ⟨clause, List.mem_cons_self, hNames, rfl⟩
      · obtain ⟨found, hMem, hFound⟩ := ih hKeys
        exact ⟨found, List.mem_cons_of_mem _ hMem, hFound⟩
  unfold scanPlan at h
  split at h
  · cases h
  split at h
  · rename_i hJoin
    cases h
    exact .inl ⟨rfl, hJoin.1⟩
  split at h
  · rename_i s hSingleton
    cases h
    exact .inr (.inl ⟨rfl, s, hSingleton, rfl⟩)
  rename_i hSingleton
  split at h
  · rename_i hKeys
    cases h
    split at hKeys
    · exact .inr (.inr ⟨rfl, hSingleton, hFind _ _ hKeys⟩)
    · cases hKeys
  · cases h
    exact absurd rfl hStrategy

theorem TableMap.singleton_of_keys (h : m.scanPlan pushable query = some (strategy, keys))
    (hStrategy : strategy ≠ .keyspace) : strategy = .keys → m.singletonKey = none := by
  rintro rfl
  rcases scanPlan_cases h hStrategy with ⟨h, -⟩ | ⟨h, -⟩ | ⟨-, h, -⟩
  · cases h
  · cases h
  · exact h

theorem TableMap.paramRefresh_nodup (value : Option Bytes) : (m.paramRefresh value).Nodup := by
  cases value with
  | none => exact List.nodup_nil
  | some key =>
    rw [paramRefresh]
    split
    · exact List.nodup_singleton _
    · exact List.nodup_nil

theorem TableMap.plannedKeys_nodup (h : m.scanPlan pushable query = some (strategy, keys))
    (hStrategy : strategy ≠ .keyspace) : (plannedKeys strategy m query.value keys).Nodup := by
  rcases scanPlan_cases h hStrategy with ⟨rfl, -⟩ | ⟨rfl, s, -, rfl⟩ | ⟨rfl, -, clause, -, -, rfl⟩
  · exact paramRefresh_nodup _
  · exact List.nodup_singleton _
  · exact refineKeys_nodup List.nodup_nil

theorem TableMap.mem_paramRefresh {value : Option Bytes} : key ∈ m.paramRefresh value ↔
    value = some key ∧ m.keyprefix.all (fun p => p.isPrefixOf key) = true := by
  cases value with
  | none => simp [paramRefresh]
  | some v =>
    rw [paramRefresh]
    by_cases hPrefix : m.keyprefix.all (fun p => p.isPrefixOf v) = true
    · rw [if_pos hPrefix, List.mem_singleton]
      constructor
      · rintro rfl
        exact ⟨rfl, hPrefix⟩
      · rintro ⟨hValue, -⟩
        exact (Option.some.inj hValue).symm
    · rw [if_neg hPrefix]
      constructor
      · exact nofun
      · rintro ⟨hValue, hKey⟩
        rw [Option.some.inj hValue] at hPrefix
        exact absurd hKey hPrefix

theorem TableMap.mem_findKeys {clauses : List Clause} (h : m.findKeys clauses = some keys) :
    key ∈ keys ↔ (∃ before clause after, clauses = before ++ clause :: after ∧
      (∀ c ∈ before, c.keys = []) ∧ key ∈ clause.keys) ∧
      m.keyprefix.all (fun p => p.isPrefixOf key) = true := by
  induction clauses with
  | nil => cases h
  | cons clause clauses ih =>
    rw [findKeys] at h
    split at h
    · -- No clause behind this one counts.
      rename_i hNames
      cases h
      rw [mem_refineKeys, or_iff_right (by simp)]
      refine and_congr_left' ⟨fun hMem => ⟨[], clause, clauses, rfl, nofun, hMem⟩, ?_⟩
      rintro ⟨_ | ⟨first, before⟩, found, after, hSplit, hBefore, hMem⟩
      · cases hSplit
        exact hMem
      · cases hSplit
        exact absurd (hBefore _ List.mem_cons_self) hNames
    · rename_i hNone
      rw [ih h]
      refine and_congr_left' ⟨?_, ?_⟩
      · rintro ⟨before, found, after, rfl, hBefore, hMem⟩
        refine ⟨clause :: before, found, after, rfl, ?_, hMem⟩
        exact List.forall_mem_cons.mpr ⟨not_not.mp hNone, hBefore⟩
      · rintro ⟨_ | ⟨first, before⟩, found, after, hSplit, hBefore, hMem⟩
        · cases hSplit
          rw [not_not.mp hNone] at hMem
          cases hMem
        · cases hSplit
          exact ⟨before, found, after, rfl, fun c hc => hBefore c (List.mem_cons_of_mem _ hc), hMem⟩

/-- A path fetches the keys that the query names. -/
theorem TableMap.mem_plannedKeys (h : m.scanPlan pushable query = some (strategy, keys))
    (hStrategy : strategy ≠ .keyspace) :
    key ∈ plannedKeys strategy m query.value keys ↔ m.Names pushable query key := by
  unfold scanPlan at h
  unfold Names
  split at h
  · cases h
  split at h
  · rename_i hJoin
    cases h
    rw [if_pos hJoin, plannedKeys, if_pos rfl, mem_paramRefresh]
  rename_i hJoin
  rw [if_neg hJoin]
  split at h
  · rename_i s hSingleton
    cases h
    simp [plannedKeys]
  rename_i hSingleton
  split at h
  · rename_i found hKeys
    cases h
    split at hKeys
    · rw [plannedKeys, if_neg (by simp), mem_findKeys hKeys]
    · cases hKeys
  · cases h
    exact absurd rfl hStrategy

/-- A key is a stray exactly if it is not the table's and the keyset does not tell. -/
theorem TableMap.stray_iff (h : m.scanPlan pushable query = some (strategy, keys))
    (hStrategy : strategy ≠ .keyspace) : m.stray ks spread strategy key = true ↔
      m.owns ks key = false ∧ ¬m.KeysetAnswers ks spread pushable query key := by
  have hKeys : strategy = .keys ↔ ¬(query.join.isSome ∧ pushable) ∧ m.singletonKey = none := by
    unfold scanPlan at h
    split at h
    · cases h
    split at h
    · rename_i hJoin
      cases h
      simp [hJoin]
    rename_i hJoin
    split at h
    · rename_i s hSingleton
      cases h
      simp [hSingleton]
    rename_i hSingleton
    split at h
    · cases h
      exact iff_of_true rfl ⟨hJoin, hSingleton⟩
    · cases h
      exact absurd rfl hStrategy
  rw [stray, Bool.and_eq_true, Bool.not_eq_true', Bool.not_eq_true', and_congr_right_iff]
  intro hOwns
  rw [Bool.eq_false_iff, not_iff_not, Bool.and_eq_true, membershipAsked, Bool.and_eq_true,
    decide_eq_true_eq, hKeys, KeysetAnswers]
  cases hKeyset : m.keyset with
  | none => simp
  | some s =>
    have hSet : (sets.read (ks s)).isSome = true ↔ HoldsType .set (ks s) := by
      rw [Option.isSome_iff_exists, sets.read_iff]
      rfl
    rw [Option.all_some, Option.bind_some, decide_eq_true_eq, hSet]
    constructor
    · rintro ⟨⟨⟨hJoin, hSingleton⟩, hHome⟩, hSet⟩
      exact ⟨hJoin, hSingleton, s, rfl, hHome, hSet⟩
    · rintro ⟨hJoin, hSingleton, _, ⟨⟩, hHome, hSet⟩
      exact ⟨⟨⟨hJoin, hSingleton⟩, hHome⟩, hSet⟩

theorem Spread.route_home {map : SlotMap} (full : ∀ i, (map.owner i).isSome) :
    map.route key = some ((Spread.cluster map full).home key) := by
  exact Option.map_eq_some_iff.mpr ⟨_, (Option.some_get (full (slot key))).symm, rfl⟩

theorem Spread.asks_iff {map : SlotMap} (full : ∀ i, (map.owner i).isSome) {node : Node} :
    asks (some map) node key = true ↔ (Spread.cluster map full).home key = node := by
  rw [asks, Option.bind_some, Spread.route_home full]
  exact decide_eq_true_iff

theorem Spread.agenda_perm {map : SlotMap} (full : ∀ i, (map.owner i).isSome) (hKeys : keys.Nodup) :
    ((agenda map keys map.nodes).map Prod.snd).Perm keys := by
  have hMap : (agenda map keys map.nodes).map Prod.snd =
      map.nodes.flatMap fun node => keys.filter (asks (some map) node) := by
    simp [agenda, List.map_flatMap]
  rw [hMap]
  refine shared_perm map.nodup hKeys (fun key _ => ?_) fun key _ node node' hAsks hAsks' => ?_
  · exact ⟨_, SlotMap.route_mem (Spread.route_home full), (Spread.asks_iff full).mpr rfl⟩
  · exact ((Spread.asks_iff full).mp hAsks).symm.trans ((Spread.asks_iff full).mp hAsks')

variable [Listing] [Inputs]

/-- A path returns the rows of the keys it fetches, in some order. -/
theorem TableMap.returns_lookup {P : Peer Unit} {S : Scan} (hServes : m.Serves now ks spread strategy P)
    (hStrategy : strategy ≠ .keyspace) (hBuffer : S.buffer = []) (hKeys : keys.Nodup) :
    ∃ order, order.Perm keys ∧ ∀ out, Returns P S (fresh strategy keys spread.topology) () out ↔
      gather (m.lookupRows now ks spread strategy) order = .ok out := by
  cases spread with
  | plain node =>
    exact ⟨keys, .refl _, fun out => returns_plain hStrategy hBuffer fun key _ => hServes key⟩
  | cluster map full =>
    refine ⟨_, Spread.agenda_perm full hKeys, fun out => ?_⟩
    rw [gather_map]
    refine returns_cluster hStrategy hBuffer fun node _ key _ hAsks => ?_
    rw [← (Spread.asks_iff full).mp hAsks]
    exact hServes key

/-! ## Strays -/

/-- For a key that is no stray a lookup takes the rows the table holds. -/
theorem TableMap.lookupRows_of_not_stray (hSingleton : strategy = .keys → m.singletonKey = none)
    (h : m.stray ks spread strategy key = false) :
    m.lookupRows now ks spread strategy key = m.rowsAt now ks key := by
  unfold lookupRows rowsAt
  rw [stray, Bool.and_eq_false_iff, Bool.not_eq_false', Bool.not_eq_false', Bool.and_eq_true] at h
  cases hAsked : m.membershipAsked spread strategy key with
  | false =>
    have hOwns : m.owns ks key = true := by simpa [hAsked] using h
    rw [if_pos hOwns]
  | true =>
    have hKeys : strategy = .keys := by
      rw [membershipAsked, Bool.and_eq_true, decide_eq_true_eq] at hAsked
      exact hAsked.1
    rw [serverRows_asked]
    cases hKeyset : m.keyset with
    | none =>
      have hOwns : m.owns ks key = true := by simpa [hKeyset] using h
      rw [if_pos hOwns]
      rfl
    | some s =>
      have hOwns : m.owns ks key = (sets.read (ks s)).any fun members => decide (key ∈ members) := by
        simp [owns, hSingleton hKeys, hKeyset]
      cases hRead : sets.read (ks s) with
      | none => simp [hOwns, hRead, hKeyset] at h
      | some members => simp [hOwns, hRead]

/-- A stray is read as if it were the table's. -/
theorem TableMap.lookupRows_of_stray (h : m.stray ks spread strategy key = true) :
    m.lookupRows now ks spread strategy key = m.serverRows now false ks key := by
  rw [stray, Bool.and_eq_true, Bool.not_eq_true', Bool.not_eq_true', Bool.and_eq_false_iff] at h
  unfold lookupRows
  cases hAsked : m.membershipAsked spread strategy key with
  | false => rfl
  | true =>
    rw [serverRows_asked]
    have hNone := h.2.resolve_left (by simp [hAsked])
    rw [Option.isSome_eq_false_iff, Option.isNone_iff_eq_none] at hNone
    rw [hNone]
    rfl

theorem TableMap.rowsAt_of_stray (h : m.stray ks spread strategy key = true) :
    m.rowsAt now ks key = .ok [] := by
  rw [stray, Bool.and_eq_true, Bool.not_eq_true'] at h
  rw [rowsAt, if_neg (by simp [h.1])]

/-! ## Agreement with a walk -/

/-- The query against the keys that the path fetches. -/
theorem TableMap.matches_iff (hPlan : m.scanPlan pushable query = some (strategy, keys))
    (hStrategy : strategy ≠ .keyspace) :
    m.Matches now ks spread pushable query ↔
      (∀ key, key ∉ plannedKeys strategy m query.value keys → ∀ rows,
        m.rowsAt now ks key = .ok rows → ∀ row ∈ rows, query.passes m row = false) ∧
      ∀ key ∈ plannedKeys strategy m query.value keys, m.stray ks spread strategy key = true →
        ∃ rows, m.lookupRows now ks spread strategy key = .ok rows ∧
          ∀ row ∈ rows, query.passes m row = false := by
  have hNames : ∀ key, key ∈ plannedKeys strategy m query.value keys ↔ m.Names pushable query key :=
    fun _ => mem_plannedKeys hPlan hStrategy
  constructor
  · rintro ⟨hNamed, hOwned⟩
    refine ⟨fun key hKey rows hRows row hRow => ?_, fun key hKey hStray => ?_⟩
    · exact Bool.eq_false_iff.mpr fun hPasses =>
        hKey ((hNames key).mpr (hNamed key rows hRows row hRow hPasses))
    · obtain ⟨hOwns, hSilent⟩ := (stray_iff hPlan hStrategy).mp hStray
      rw [lookupRows_of_stray hStray]
      exact (hOwned key ((hNames key).mp hKey) hOwns).resolve_left hSilent
  · rintro ⟨hMissed, hStrays⟩
    refine ⟨fun key rows hRows row hRow hPasses => ?_, fun key hKey hOwns => ?_⟩
    · by_contra hNot
      rw [hMissed key (mt (hNames key).mp hNot) rows hRows row hRow] at hPasses
      cases hPasses
    · refine or_iff_not_imp_left.mpr fun hSilent => ?_
      have hStray := (stray_iff hPlan hStrategy).mpr ⟨hOwns, hSilent⟩
      rw [← lookupRows_of_stray hStray]
      exact hStrays key ((hNames key).mpr hKey) hStray

/-- A key that is not the table's brings no row, unless it is a stray. -/
theorem TableMap.fetch_owned_iff (hPlan : m.scanPlan pushable query = some (strategy, keys))
    (hStrategy : strategy ≠ .keyspace) {reply : ValueReply × Unit}
    (hReply : reply = (.value (m.lookupRows now ks spread strategy key), ())) :
    (∀ rows, reply = (.value (.ok rows), ()) → ∀ row ∈ rows, query.passes m row = true →
        m.owns ks key = true) ↔
      (m.stray ks spread strategy key = true → ∀ rows,
        m.lookupRows now ks spread strategy key = .ok rows →
        ∀ row ∈ rows, query.passes m row = false) := by
  simp only [hReply, Prod.mk.injEq, ValueReply.value.injEq, and_true]
  constructor
  · intro hOwned hStray rows hRows row hRow
    refine Bool.eq_false_iff.mpr fun hPasses => ?_
    have hOwns := hOwned rows hRows row hRow hPasses
    rw [((stray_iff hPlan hStrategy).mp hStray).1] at hOwns
    cases hOwns
  · intro hStrays rows hRows row hRow hPasses
    cases hStray : m.stray ks spread strategy key with
    | true =>
      rw [hStrays hStray rows hRows row hRow] at hPasses
      cases hPasses
    | false =>
      rw [lookupRows_of_not_stray (singleton_of_keys hPlan hStrategy) hStray, rowsAt] at hRows
      split at hRows
      · assumption
      · cases hRows
        cases hRow

end Fetch

/-- A path that fetches keys ends without an error and agrees, after the recheck, with
a walk of all of the table's keys, and takes no row that passes from a key that is not
the table's, if and only if the query names the table's keys as far as rows pass.
`table` are the keys of the table, and `walk` is what it holds under them. -/
theorem access_path_iff [Listing] [Inputs] (m : TableMap) (now : Nat) (ks : Keyspace) (spread : Spread)
    (pushable : Bool) (query : Query) (strategy : Strategy) (keys : List Bytes)
    (hPlan : m.scanPlan pushable query = some (strategy, keys)) (hStrategy : strategy ≠ .keyspace)
    (P : Peer Unit) (S : Scan) (hServes : m.Serves now ks spread strategy P) (hBuffer : S.buffer = [])
    (table : List Bytes) (walk : List Row) (hTable : table.Nodup)
    (hRest : ∀ key, key ∉ table → m.rowsAt now ks key = .ok [])
    (hWalk : gather (m.rowsAt now ks) table = .ok walk) :
    ((∃ out, Returns P S (fresh strategy (plannedKeys strategy m query.value keys) spread.topology) ()
        out ∧ (out.filter (query.passes m)).Perm (walk.filter (query.passes m))) ∧
      ∀ key ∈ plannedKeys strategy m query.value keys, ∀ rows,
        P.fetch (spread.home key) key () = (.value (.ok rows), ()) →
        ∀ row ∈ rows, query.passes m row = true → m.owns ks key = true) ↔
      m.Matches now ks spread pushable query := by
  have hNodup := TableMap.plannedKeys_nodup hPlan hStrategy
  obtain ⟨order, hOrder, hReturns⟩ := TableMap.returns_lookup hServes hStrategy hBuffer hNodup
  have hSingleton := TableMap.singleton_of_keys hPlan hStrategy
  simp only [hReturns, TableMap.fetch_owned_iff hPlan hStrategy (hServes _)]
  rw [TableMap.matches_iff hPlan hStrategy]
  exact gather_strays_iff hNodup hTable hOrder
    (fun key _ => TableMap.lookupRows_of_not_stray hSingleton)
    (fun key _ hStray => TableMap.rowsAt_of_stray hStray) hRest hWalk

/-! ## Lookups that go wrong -/

/-- A server that holds a keyspace; the scan asks it for keys only. -/
def lookupPeer [Listing] [Inputs] (m : TableMap) (now : Nat) (ks : Keyspace) (spread : Spread)
    (strategy : Strategy) : Peer Unit where
  shards _ _ := (.error (.failed []), ())
  scan _ _ _ := (.ok (cursorZero, []), ())
  fetch _ key _ := (.value (m.lookupRows now ks spread strategy key), ())
  beyond _ _ := 0

def bytewise : Collation where
  deterministic := true
  equal a b := a = b
  exact _ _ _ h := of_decide_eq_true h

/-- Equality without regard to the case of ASCII letters. -/
def caseless : Collation where
  deterministic := false
  equal a b := a.map (· ||| 0x20) = b.map (· ||| 0x20)
  exact := nofun

def joinOn (c : Collation) (value : Bytes) : Query := ⟨[], some (c, some value)⟩

/-- The server holds one string, under the key `a`. -/
def oneString : Keyspace := fun key => if key = ascii "a" then some (.string [9]) else none

def stringRow (key : Bytes) : Row := [some (.scalar key), some (.scalar [9])]

def onlyServer : Spread := .plain ⟨[], 0⟩

/-- A lookup by an equality finds the one row, and no other. -/
theorem access_path_iff_oneString : letI := listingByName .resp2; letI := verbatim
    (∃ out, Returns (lookupPeer allStrings 0 oneString onlyServer .keys) plainScan
        (fresh .keys (plannedKeys .keys allStrings none [ascii "a"]) onlyServer.topology) () out ∧
      (out.filter (Query.passes ⟨[.eq bytewise (some (ascii "a"))], none⟩ allStrings)).Perm
        ([stringRow (ascii "a")].filter
          (Query.passes ⟨[.eq bytewise (some (ascii "a"))], none⟩ allStrings))) ∧
    ∀ key ∈ plannedKeys .keys allStrings none [ascii "a"], ∀ rows,
      (lookupPeer allStrings 0 oneString onlyServer .keys).fetch (onlyServer.home key) key () =
        (.value (.ok rows), ()) →
      ∀ row ∈ rows, Query.passes ⟨[.eq bytewise (some (ascii "a"))], none⟩ allStrings row = true →
        allStrings.owns oneString key = true := by
  let _ := listingByName .resp2
  let _ := verbatim
  have hRest : ∀ key, key ∉ [ascii "a"] → allStrings.rowsAt 0 oneString key = .ok [] := by
    intro key hKey
    have hAbsent : oneString key = none := if_neg (by simpa using hKey)
    rw [TableMap.rowsAt, TableMap.serverRows_eq_nil (by simp [hAbsent]), ite_self]
  refine (access_path_iff allStrings 0 oneString onlyServer true
    ⟨[.eq bytewise (some (ascii "a"))], none⟩ .keys [ascii "a"] rfl (by decide)
    (lookupPeer allStrings 0 oneString onlyServer .keys) plainScan (fun _ => rfl) rfl
    [ascii "a"] [stringRow (ascii "a")] (List.nodup_singleton _) hRest rfl).mpr
    ⟨fun key rows hRows row hRow _ => ?_, by rintro key - ⟨⟩⟩
  by_cases hKey : key ∈ [ascii "a"]
  · exact ⟨⟨[], _, [], rfl, by simp, hKey⟩, rfl⟩
  · rw [hRest key hKey] at hRows
    cases hRows
    cases hRow

/-- A join returns the row of a key that is not in the table's keyset, and of a key that
is not the table's one key; by a collation that ignores case it loses a row. -/
theorem joins_read_other_keys : letI := listingByName .resp2; letI := verbatim
    (TableMap.scanPlan { allStrings with keyset := some [0] } true (joinOn bytewise (ascii "a")) =
        some (.keyParam, []) ∧
      TableMap.owns { allStrings with keyset := some [0] } oneString (ascii "a") = false ∧
      Returns (lookupPeer { allStrings with keyset := some [0] } 0 oneString onlyServer .keyParam)
        plainScan (fresh .keyParam [ascii "a"] onlyServer.topology) () [stringRow (ascii "a")] ∧
      (joinOn bytewise (ascii "a")).passes { allStrings with keyset := some [0] }
        (stringRow (ascii "a")) = true) ∧
    (TableMap.scanPlan { allStrings with singletonKey := some [0] } true
        (joinOn bytewise (ascii "a")) = some (.keyParam, []) ∧
      TableMap.owns { allStrings with singletonKey := some [0] } oneString (ascii "a") = false ∧
      Returns (lookupPeer { allStrings with singletonKey := some [0] } 0 oneString onlyServer .keyParam)
        plainScan (fresh .keyParam [ascii "a"] onlyServer.topology) () [stringRow (ascii "a")] ∧
      (joinOn bytewise (ascii "a")).passes { allStrings with singletonKey := some [0] }
        (stringRow (ascii "a")) = true) ∧
    (allStrings.scanPlan true (joinOn caseless (ascii "A")) = some (.keyParam, []) ∧
      allStrings.rowsAt 0 oneString (ascii "a") = .ok [stringRow (ascii "a")] ∧
      (joinOn caseless (ascii "A")).passes allStrings (stringRow (ascii "a")) = true ∧
      Returns (lookupPeer allStrings 0 oneString onlyServer .keyParam) plainScan
        (fresh .keyParam [ascii "A"] onlyServer.topology) () []) := by
  let _ := listingByName .resp2
  let _ := verbatim
  refine ⟨⟨rfl, rfl, ?_, rfl⟩, ⟨rfl, rfl, ?_, rfl⟩, rfl, rfl, rfl, ?_⟩
  · exact .next rfl (.next rfl (.row rfl (.done rfl)))
  · exact .next rfl (.next rfl (.row rfl (.done rfl)))
  · exact .next rfl (.next rfl (.done rfl))

end ValkeyFdw
