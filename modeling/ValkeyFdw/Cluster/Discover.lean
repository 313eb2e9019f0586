import Mathlib.Data.List.Dedup
import Mathlib.Data.List.ReduceOption
import Mathlib.Data.List.TakeWhile
import ValkeyFdw.Cluster.Slots
import ValkeyFdw.Lib.Intern
import ValkeyFdw.Lib.Trace

/-!
# Building a slot map

A cluster is discovered from one reply, an array of shards. A shard names its nodes and
its slot ranges; the first master with an address is its primary, and the ranges are
written down for it, over what earlier shards claimed.

* `field_ok`, `shardPrimary_ok`, `applySlots_ok`: what each part makes of the reply;
* `loadShards_built`: the map after some shards, kept shard by shard;
* `load_built`: so the map of a reply lists its primaries once each and gives a slot to
  the last shard with a primary that claims it.
-/

namespace ValkeyFdw

/-! ## Replies -/

/-- The types of a reply. -/
inductive ReplyType where
  | string
  | array
  | integer
  | nil
  | status
  | error
  | double
  | bool
  | map
  | set
  | push
  | verb
  | bignum
  | attr
deriving DecidableEq

/-- A reply as the client library parsed it; an element may be declared and absent. -/
structure ValkeyReply where
  type : ReplyType
  integer : Int
  str : Option Bytes
  element : List (Option ValkeyReply)

/-- Every element that was declared is there, at every depth. -/
inductive ValkeyReply.Complete : ValkeyReply → Prop where
  | intro (r : ValkeyReply) (present : none ∉ r.element)
      (deep : ∀ d, some d ∈ r.element → ValkeyReply.Complete d) : Complete r

/-- Why a slot map is not read. -/
inductive LoadError where
  /-- "a Valkey aggregate reply is missing an element it declared" -/
  | missingElement
  /-- "could not read the cluster's slot map" -/
  | unexpectedType (type : ReplyType)
deriving DecidableEq

namespace ValkeyReply

def child : Option ValkeyReply → Except LoadError ValkeyReply
  | some r => .ok r
  | none => .error .missingElement

/-- The walk over the pairs of an aggregate. -/
def fieldFrom (name : Bytes) : List (Option ValkeyReply) → Except LoadError (Option ValkeyReply)
  | k :: v :: rest => do
    let k ← child k
    if k.str = some name then return some (← child v) else fieldFrom name rest
  | _ => .ok none

def field (agg : ValkeyReply) (name : String) : Except LoadError (Option ValkeyReply) :=
  if agg.type = .array ∨ agg.type = .map then fieldFrom (ascii name) agg.element else .ok none

/-- The text of a field, unless it is absent or empty. -/
def text (r : Option ValkeyReply) : Option Bytes := (r.bind ValkeyReply.str).filter (· ≠ [])

end ValkeyReply

/-! ## The map -/

/-- A primary in the map. -/
@[ext] structure ClusterNode where
  host : Bytes
  port : Int
deriving DecidableEq

/-- The primaries, and for each slot the place of one of them or `-1`. -/
structure BuiltMap where
  nodes : List ClusterNode
  owner : Fin nslots → Int

namespace BuiltMap

def empty : BuiltMap := ⟨[], fun _ => -1⟩

/-- A conversion to `int`. -/
def toInt (n : Int) : Int := n.bmod (2 ^ 32)

/-- A conversion to `int16`. -/
def toInt16 (n : Int) : Int := n.bmod (2 ^ 16)

/-- Add one primary and return its place; a host is kept up to its first NUL. -/
def intern (map : BuiltMap) (host : Bytes) (port : Int) : BuiltMap × Nat :=
  match map.nodes.findIdx? fun n => n.port = port ∧ n.host = host with
  | some i => (map, i)
  | none => ({ map with nodes := map.nodes ++ [⟨host.takeWhile (· ≠ 0), port⟩] }, map.nodes.length)

/-- What a client should connect to, or else where the node lives. -/
def host (node : ValkeyReply) : Except LoadError (Option Bytes) := do
  let endpoint ← node.field "endpoint"
  if ValkeyReply.text endpoint = none then return ValkeyReply.text (← node.field "ip")
  else return ValkeyReply.text endpoint

/-- The address of a node that is a master. -/
def address (node : ValkeyReply) : Except LoadError (Option (Bytes × Int)) := do
  let role ← node.field "role"
  if role.bind ValkeyReply.str ≠ some (ascii "master") then return none
  else
    let host ← host node
    let port ← node.field "port"
    match host, port with
    | some host, some port =>
      if port.type = .integer then return some (host, toInt port.integer) else return none
    | _, _ => return none

def shardPrimaryFrom (map : BuiltMap) :
    List (Option ValkeyReply) → Except LoadError (BuiltMap × Option Nat)
  | [] => .ok (map, none)
  | node :: rest => do
    match ← address (← ValkeyReply.child node) with
    | some (host, port) =>
      let (map, i) := map.intern host port
      return (map, some i)
    | none => shardPrimaryFrom map rest

/-- The primary of one shard, if it reports one. -/
def shardPrimary (map : BuiltMap) (shard : ValkeyReply) :
    Except LoadError (BuiltMap × Option Nat) := do
  match ← shard.field "nodes" with
  | some nodes =>
    if nodes.type = .array then shardPrimaryFrom map nodes.element else return (map, none)
  | none => return (map, none)

/-- A range that runs outside the slots is ignored rather than clamped. -/
def applyRange (lo hi : ValkeyReply) (node : Nat) (owner : Fin nslots → Int) : Fin nslots → Int :=
  if lo.type ≠ .integer ∨ hi.type ≠ .integer then owner
  else if lo.integer < 0 ∨ (nslots : Int) ≤ hi.integer ∨ hi.integer < lo.integer then owner
  else fun s => if lo.integer ≤ (s : Nat) ∧ (s : Nat) ≤ hi.integer then toInt16 node else owner s

def applyRanges (node : Nat) :
    List (Option ValkeyReply) → (Fin nslots → Int) → Except LoadError (Fin nslots → Int)
  | lo :: hi :: rest, owner => do
    applyRanges node rest (applyRange (← ValkeyReply.child lo) (← ValkeyReply.child hi) node owner)
  | _, owner => .ok owner

/-- Assign the ranges of one shard to its primary. -/
def applySlots (map : BuiltMap) (shard : ValkeyReply) (node : Nat) : Except LoadError BuiltMap := do
  match ← shard.field "slots" with
  | some slots =>
    if slots.type = .array then
      return { map with owner := ← applyRanges node slots.element map.owner }
    else return map
  | none => return map

/-- The shards of a reply, one after another. -/
def loadShards (map : BuiltMap) : List (Option ValkeyReply) → Except LoadError BuiltMap
  | [] => .ok map
  | shard :: rest => do
    let shard ← ValkeyReply.child shard
    match ← map.shardPrimary shard with
    | (map, some node) => loadShards (← map.applySlots shard node) rest
    | (map, none) => loadShards map rest

/-- The map of a reply to `CLUSTER SHARDS`. -/
def load (reply : ValkeyReply) : Except LoadError BuiltMap :=
  if reply.type ≠ .array then .error (.unexpectedType reply.type)
  else empty.loadShards reply.element

end BuiltMap

/-! ## What a reply says -/

namespace ValkeyReply

def lookup (name : Bytes) : List (Option ValkeyReply) → Option ValkeyReply
  | k :: v :: rest => if k.bind ValkeyReply.str = some name then v else lookup name rest
  | _ => none

/-- The value of a named field. -/
def get (agg : ValkeyReply) (name : String) : Option ValkeyReply :=
  if agg.type = .array ∨ agg.type = .map then lookup (ascii name) agg.element else none

/-- Where a master is reached: its endpoint, or else its ip, and its port. -/
def address (node : ValkeyReply) : Option ClusterNode :=
  if (node.get "role").bind ValkeyReply.str = some (ascii "master") then do
    let host ← text (node.get "endpoint") <|> text (node.get "ip")
    let port ← (node.get "port").filter (·.type = .integer)
    return ⟨host, BuiltMap.toInt port.integer⟩
  else none

/-- The primary of a shard: the first of its nodes that is a master with an address. -/
def primary (shard : ValkeyReply) : Option ClusterNode := do
  let nodes ← (shard.get "nodes").filter (·.type = .array)
  nodes.element.findSome? (·.bind address)

/-- Two integers are a range that lies inside the slots and holds this one. -/
def Covers (lo hi : ValkeyReply) (s : Fin nslots) : Prop :=
  lo.type = .integer ∧ hi.type = .integer ∧ 0 ≤ lo.integer ∧ lo.integer ≤ (s : Nat) ∧
    (s : Nat) ≤ hi.integer ∧ hi.integer < (nslots : Int)

instance (lo hi : ValkeyReply) (s : Fin nslots) : Decidable (Covers lo hi s) :=
  inferInstanceAs (Decidable (_ ∧ _))

/-- One of the pairs of a list covers a slot. -/
def Ranged (l : List (Option ValkeyReply)) (s : Fin nslots) : Prop :=
  ∃ (i : Nat) (lo hi : ValkeyReply), l[2 * i]? = some (some lo) ∧ l[2 * i + 1]? = some (some hi) ∧
    Covers lo hi s

/-- A shard claims the slots of its valid ranges. -/
def Claims (shard : ValkeyReply) (s : Fin nslots) : Prop :=
  ∃ slots, shard.get "slots" = some slots ∧ slots.type = .array ∧ Ranged slots.element s

/-- The shards of a reply. -/
def shards (reply : ValkeyReply) : List ValkeyReply := reply.element.reduceOption

end ValkeyReply

/-! ## Reading the reply -/

section Read

variable {r : ValkeyReply} {name : String}

theorem child_ok {c : Option ValkeyReply} : ValkeyReply.child c = .ok r ↔ c = some r := by
  cases c with
  | none => simp [ValkeyReply.child]
  | some d => simp [ValkeyReply.child]

variable {l : List (Option ValkeyReply)} {map' : BuiltMap}

theorem fieldFrom_ok {name : Bytes} {v : Option ValkeyReply}
    (h : ValkeyReply.fieldFrom name l = .ok v) : v = ValkeyReply.lookup name l := by
  induction l using ValkeyReply.fieldFrom.induct with
  | case1 k v' rest ih =>
    obtain ⟨k', hk, h₁⟩ := Trace.bind_ok.mp h
    rw [ValkeyReply.lookup, child_ok.mp hk, Option.bind_some]
    split at h₁
    · rename_i hName
      obtain ⟨d, hd, h₂⟩ := Trace.bind_ok.mp h₁
      cases h₂
      rw [if_pos hName, child_ok.mp hd]
    · rename_i hName
      rw [if_neg hName]
      exact ih h₁
  | case2 l hShort =>
    rw [ValkeyReply.fieldFrom.eq_2 _ _ hShort] at h
    rw [ValkeyReply.lookup.eq_2 _ _ hShort]
    cases h
    rfl

theorem field_ok {agg : ValkeyReply} {v : Option ValkeyReply} (h : agg.field name = .ok v) :
    v = agg.get name := by
  unfold ValkeyReply.field at h
  unfold ValkeyReply.get
  split at h
  · rename_i hAgg
    rw [if_pos hAgg]
    exact fieldFrom_ok h
  · rename_i hAgg
    cases h
    rw [if_neg hAgg]

theorem host_ok {node : ValkeyReply} {v : Option Bytes} (h : BuiltMap.host node = .ok v) :
    v = (ValkeyReply.text (node.get "endpoint") <|> ValkeyReply.text (node.get "ip")) := by
  obtain ⟨endpoint, hEndpoint, h₁⟩ := Trace.bind_ok.mp h
  rw [← field_ok hEndpoint]
  split at h₁
  · rename_i hNone
    obtain ⟨ip, hIp, h₂⟩ := Trace.bind_ok.mp h₁
    cases h₂
    rw [hNone, ← field_ok hIp]
    rfl
  · rename_i hSome
    cases h₁
    obtain ⟨t, ht⟩ := Option.ne_none_iff_exists'.mp hSome
    rw [ht]
    rfl

/-- The address the source finds is the one the reply gives. -/
theorem address_ok {node : ValkeyReply} {a : Option (Bytes × Int)}
    (h : BuiltMap.address node = .ok a) :
    node.address = a.map fun x => ⟨x.1, x.2⟩ := by
  obtain ⟨role, hRole, h₁⟩ := Trace.bind_ok.mp h
  rw [ValkeyReply.address, ← field_ok hRole]
  split at h₁
  · rename_i hNot
    cases h₁
    rw [if_neg hNot]
    rfl
  · rename_i hMaster
    rw [if_pos (not_not.mp hMaster)]
    obtain ⟨host, hHost, h₂⟩ := Trace.bind_ok.mp h₁
    obtain ⟨port, hPort, h₃⟩ := Trace.bind_ok.mp h₂
    rw [← host_ok hHost, ← field_ok hPort]
    split at h₃
    · rename_i hostText portReply
      split at h₃ <;> rename_i hType <;> cases h₃ <;> simp [Option.filter, hType]
    · rename_i hNone
      cases h₃
      cases host with
      | none => rfl
      | some host =>
        cases port with
        | none => rfl
        | some port => exact absurd rfl (hNone host port rfl)

theorem shardPrimaryFrom_ok {map : BuiltMap} {v : Option Nat}
    (h : map.shardPrimaryFrom l = .ok (map', v)) :
    (l.findSome? (·.bind ValkeyReply.address) = none ∧ map' = map ∧ v = none) ∨
      ∃ n, l.findSome? (·.bind ValkeyReply.address) = some n ∧
        map' = (map.intern n.host n.port).1 ∧ v = some (map.intern n.host n.port).2 := by
  induction l with
  | nil =>
    cases h
    exact .inl ⟨rfl, rfl, rfl⟩
  | cons node rest ih =>
    obtain ⟨d, hd, h₁⟩ := Trace.bind_ok.mp h
    obtain ⟨a, ha, h₂⟩ := Trace.bind_ok.mp h₁
    have hAddress := address_ok ha
    rw [child_ok.mp hd, List.findSome?_cons, Option.bind_some, hAddress]
    cases a with
    | none => exact ih h₂
    | some a =>
      cases h₂
      exact .inr ⟨⟨a.1, a.2⟩, rfl, rfl, rfl⟩

/-- The source enters the primary of a shard, and nothing else. -/
theorem shardPrimary_ok {map : BuiltMap} {shard : ValkeyReply} {v : Option Nat}
    (h : map.shardPrimary shard = .ok (map', v)) :
    (shard.primary = none ∧ map' = map ∧ v = none) ∨
      ∃ n, shard.primary = some n ∧ map' = (map.intern n.host n.port).1 ∧
        v = some (map.intern n.host n.port).2 := by
  obtain ⟨nodes, hNodes, h₁⟩ := Trace.bind_ok.mp h
  rw [ValkeyReply.primary, ← field_ok hNodes]
  cases nodes with
  | none =>
    cases h₁
    exact .inl ⟨rfl, rfl, rfl⟩
  | some nodes =>
    dsimp only at h₁
    split at h₁ <;> rename_i hType
    · have hNodes : (some nodes).filter (·.type = .array) = some nodes := by
        simp [Option.filter, hType]
      rw [hNodes]
      exact shardPrimaryFrom_ok h₁
    · cases h₁
      exact .inl ⟨by simp [Option.filter, hType], rfl, rfl⟩

theorem applyRange_apply (lo hi : ValkeyReply) (node : Nat) (owner : Fin nslots → Int)
    (s : Fin nslots) :
    BuiltMap.applyRange lo hi node owner s =
      if ValkeyReply.Covers lo hi s then BuiltMap.toInt16 node else owner s := by
  unfold BuiltMap.applyRange
  split
  · rename_i hType
    rw [if_neg fun h => hType.elim (absurd h.1) (absurd h.2.1)]
  · rename_i hType
    obtain ⟨hLo, hHi⟩ := not_or.mp hType
    split
    · rename_i hOut
      rw [if_neg fun h => ?_]
      obtain ⟨-, -, h⟩ := h
      omega
    · rename_i hIn
      refine if_congr ⟨fun h => ?_, fun h => ⟨h.2.2.2.1, h.2.2.2.2.1⟩⟩ rfl rfl
      exact ⟨not_not.mp hLo, not_not.mp hHi, by omega, h.1, h.2, by omega⟩

theorem ranged_cons {c d : Option ValkeyReply} {s : Fin nslots} :
    ValkeyReply.Ranged (c :: d :: l) s ↔
      (∃ lo hi, c = some lo ∧ d = some hi ∧ ValkeyReply.Covers lo hi s) ∨
        ValkeyReply.Ranged l s := by
  constructor
  · rintro ⟨i, lo, hi, hLo, hHi, hCovers⟩
    cases i with
    | zero => exact .inl ⟨lo, hi, by simpa using hLo, by simpa using hHi, hCovers⟩
    | succ i =>
      exact .inr ⟨i, lo, hi, by simpa [Nat.mul_add] using hLo, by simpa [Nat.mul_add] using hHi,
        hCovers⟩
  · rintro (⟨lo, hi, rfl, rfl, hCovers⟩ | ⟨i, lo, hi, hLo, hHi, hCovers⟩)
    · exact ⟨0, lo, hi, rfl, rfl, hCovers⟩
    · exact ⟨i + 1, lo, hi, by simpa [Nat.mul_add] using hLo, by simpa [Nat.mul_add] using hHi,
        hCovers⟩

theorem applyRanges_ok {node : Nat} {owner owner' : Fin nslots → Int}
    (h : BuiltMap.applyRanges node l owner = .ok owner') (s : Fin nslots) :
    (ValkeyReply.Ranged l s → owner' s = BuiltMap.toInt16 node) ∧
      (¬ValkeyReply.Ranged l s → owner' s = owner s) := by
  induction l, owner using BuiltMap.applyRanges.induct node with
  | case1 lo hi rest owner ih =>
    obtain ⟨lo', hLo, h₁⟩ := Trace.bind_ok.mp h
    obtain ⟨hi', hHi, h₂⟩ := Trace.bind_ok.mp h₁
    have hRest := ih lo' hi' h₂
    rw [child_ok.mp hLo, child_ok.mp hHi, ranged_cons]
    rw [applyRange_apply] at hRest
    by_cases hRanged : ValkeyReply.Ranged rest s
    · exact ⟨fun _ => hRest.1 hRanged, fun hNot => absurd (.inr hRanged) hNot⟩
    · by_cases hCovers : ValkeyReply.Covers lo' hi' s
      · rw [if_pos hCovers] at hRest
        exact ⟨fun _ => hRest.2 hRanged, fun hNot => absurd (.inl ⟨_, _, rfl, rfl, hCovers⟩) hNot⟩
      · rw [if_neg hCovers] at hRest
        refine ⟨?_, fun _ => hRest.2 hRanged⟩
        rintro (⟨_, _, ⟨⟩, ⟨⟩, hThis⟩ | hThis)
        · exact absurd hThis hCovers
        · exact absurd hThis hRanged
  | case2 l owner hShort =>
    rw [BuiltMap.applyRanges.eq_2 _ _ _ hShort] at h
    cases h
    refine ⟨?_, fun _ => rfl⟩
    rintro ⟨i, lo, hi, hLo, hHi, -⟩
    match l, hShort, hLo, hHi with
    | [], _, hLo, _ => simp at hLo
    | [_], _, _, hHi => simp at hHi
    | _ :: _ :: _, hShort, _, _ => exact absurd rfl (hShort _ _ _)

theorem applySlots_ok {map : BuiltMap} {shard : ValkeyReply} {node : Nat}
    (h : map.applySlots shard node = .ok map') :
    map'.nodes = map.nodes ∧ ∀ s, (shard.Claims s → map'.owner s = BuiltMap.toInt16 node) ∧
      (¬shard.Claims s → map'.owner s = map.owner s) := by
  obtain ⟨slots, hSlots, h₁⟩ := Trace.bind_ok.mp h
  have hGet := field_ok hSlots
  cases slots with
  | none =>
    cases h₁
    refine ⟨rfl, fun s => ⟨?_, fun _ => rfl⟩⟩
    rintro ⟨slots, hSome, -⟩
    rw [← hGet] at hSome
    cases hSome
  | some slots =>
    dsimp only at h₁
    split at h₁
    · rename_i hType
      obtain ⟨owner, hOwner, h₂⟩ := Trace.bind_ok.mp h₁
      cases h₂
      have hClaims : ∀ s, shard.Claims s ↔ ValkeyReply.Ranged slots.element s := by
        intro s
        constructor
        · rintro ⟨slots', hSome, -, hRanged⟩
          rw [← hGet] at hSome
          cases hSome
          exact hRanged
        · exact fun hRanged => ⟨slots, hGet.symm, hType, hRanged⟩
      refine ⟨rfl, fun s => ?_⟩
      rw [hClaims]
      exact applyRanges_ok hOwner s
    · rename_i hType
      cases h₁
      refine ⟨rfl, fun s => ⟨?_, fun _ => rfl⟩⟩
      rintro ⟨slots', hSome, hArray, -⟩
      rw [← hGet] at hSome
      cases hSome
      exact absurd hArray hType

end Read

/-! ## Shard by shard -/

/-- Who owns a slot once some shards were read: nobody, where none with a primary claims
it, and otherwise the primary of the last one that does. -/
def BuiltMap.Owned (map : BuiltMap) (done : List ValkeyReply) (s : Fin nslots) : Prop :=
  (map.owner s = -1 ∧ ∀ shard ∈ done, shard.primary ≠ none → ¬shard.Claims s) ∨
  ∃ before shard after n, ∃ i : Nat, done = before ++ shard :: after ∧ shard.primary = some n ∧
    shard.Claims s ∧ (∀ later ∈ after, later.primary ≠ none → ¬later.Claims s) ∧
    map.nodes[i]? = some n ∧ map.owner s = i

/-- The map after some shards. -/
structure BuiltMap.Built (map : BuiltMap) (done : List ValkeyReply) : Prop where
  nodes : map.nodes = (done.filterMap ValkeyReply.primary).foldl Intern.intern []
  owner : ∀ s, map.Owned done s

section Built

variable {map map' : BuiltMap} {done : List ValkeyReply} {shard : ValkeyReply} {n : ClusterNode}

theorem intern_spec (map : BuiltMap) (hHost : 0 ∉ n.host) :
    (map.intern n.host n.port).1.nodes = Intern.intern map.nodes n ∧
      (map.intern n.host n.port).1.owner = map.owner ∧
      (Intern.intern map.nodes n)[(map.intern n.host n.port).2]? = some n := by
  unfold BuiltMap.intern Intern.intern
  split
  · rename_i i hFind
    obtain ⟨hi, hNode, -⟩ := List.findIdx?_eq_some_iff_getElem.mp hFind
    have hEq : map.nodes[i] = n := by
      have hBoth := of_decide_eq_true hNode
      exact ClusterNode.ext hBoth.2 hBoth.1
    have hMem : n ∈ map.nodes := hEq ▸ List.getElem_mem hi
    rw [if_pos hMem]
    exact ⟨rfl, rfl, by rw [List.getElem?_eq_getElem hi, hEq]⟩
  · rename_i hFind
    have hNot : n ∉ map.nodes := by
      intro hMem
      simpa using List.findIdx?_eq_none_iff.mp hFind n hMem
    have hCopy : n.host.takeWhile (· ≠ 0) = n.host := by
      rw [List.takeWhile_eq_self_iff]
      intro b hb
      simpa using ne_of_mem_of_not_mem hb hHost
    rw [if_neg hNot, hCopy]
    exact ⟨rfl, rfl, by simp⟩

theorem BuiltMap.Owned.skip {s : Fin nslots} (h : map.Owned done s)
    (hSkip : shard.primary ≠ none → ¬shard.Claims s) (hNodes : map.nodes <+: map'.nodes)
    (hOwner : map'.owner s = map.owner s) : map'.Owned (done ++ [shard]) s := by
  have hLast : ∀ l : List ValkeyReply, (∀ later ∈ l, later.primary ≠ none → ¬later.Claims s) →
      ∀ later ∈ l ++ [shard], later.primary ≠ none → ¬later.Claims s := by
    intro l hl later hMem
    rcases List.mem_append.mp hMem with hMem | hMem
    · exact hl later hMem
    · rw [List.mem_singleton.mp hMem]
      exact hSkip
  rcases h with ⟨hNone, hFree⟩ | ⟨before, sh, after, n, i, rfl, hPrimary, hClaims, hAfter, hAt, hIs⟩
  · exact .inl ⟨hOwner.trans hNone, hLast done hFree⟩
  · refine .inr ⟨before, sh, after ++ [shard], n, i, by simp, hPrimary, hClaims, hLast after hAfter,
      ?_, hOwner.trans hIs⟩
    obtain ⟨hi, -⟩ := List.getElem?_eq_some_iff.mp hAt
    obtain ⟨t, ht⟩ := hNodes
    rw [← ht, List.getElem?_append_left hi, hAt]

theorem BuiltMap.Built.skip (h : map.Built done) (hNone : shard.primary = none) :
    map.Built (done ++ [shard]) := by
  refine ⟨?_, fun s => (h.owner s).skip (fun hne => absurd hNone hne) (List.prefix_refl _) rfl⟩
  rw [h.nodes, List.filterMap_append]
  simp [hNone]

theorem toInt16_of_lt {i : Nat} (h : i < 32768) : BuiltMap.toInt16 i = i := by
  unfold BuiltMap.toInt16
  rw [Int.bmod_def]
  omega

theorem BuiltMap.Built.claim (h : map.Built done) (hPrimary : shard.primary = some n)
    (hHost : 0 ∉ n.host) (hFew : (Intern.intern map.nodes n).length < 32768)
    (hSlots : (map.intern n.host n.port).1.applySlots shard (map.intern n.host n.port).2 =
      .ok map') : map'.Built (done ++ [shard]) := by
  obtain ⟨hNodes, hOwner, hAt⟩ := intern_spec map hHost
  obtain ⟨hSame, hApply⟩ := applySlots_ok hSlots
  have hNow : map'.nodes = Intern.intern map.nodes n := hSame.trans hNodes
  obtain ⟨hi, -⟩ := List.getElem?_eq_some_iff.mp hAt
  refine ⟨?_, fun s => ?_⟩
  · rw [hNow, h.nodes, List.filterMap_append, List.foldl_append]
    simp [hPrimary]
  · by_cases hClaims : shard.Claims s
    · refine .inr ⟨done, shard, [], n, _, rfl, hPrimary, hClaims, nofun, hNow ▸ hAt, ?_⟩
      rw [(hApply s).1 hClaims, toInt16_of_lt (by omega)]
    · refine (h.owner s).skip (fun _ => hClaims) (hNow ▸ Intern.prefix_intern _ _) ?_
      rw [(hApply s).2 hClaims, hOwner]

theorem length_primaries (l : List ClusterNode) :
    (l.foldl Intern.intern []).length = l.dedup.length := by
  refine ((List.perm_ext_iff_of_nodup (Intern.nodup_foldl_intern List.nodup_nil)
    (List.nodup_dedup l)).mpr fun a => ?_).length_eq
  rw [Intern.mem_foldl_intern, List.mem_dedup]
  simp

/-- The loop over the shards keeps the map. -/
theorem loadShards_built {l : List (Option ValkeyReply)} (h : map.Built done)
    (hHosts : ∀ shard ∈ l.reduceOption, ∀ n, shard.primary = some n → 0 ∉ n.host)
    (hFew : ((done ++ l.reduceOption).filterMap ValkeyReply.primary).dedup.length < 32768)
    (hLoad : map.loadShards l = .ok map') : map'.Built (done ++ l.reduceOption) := by
  induction l generalizing map done with
  | nil =>
    cases hLoad
    simpa using h
  | cons c l ih =>
    obtain ⟨shard, hShard, h₁⟩ := Trace.bind_ok.mp hLoad
    obtain ⟨⟨map₁, v⟩, hPrimary, h₂⟩ := Trace.bind_ok.mp h₁
    obtain rfl := child_ok.mp hShard
    rw [List.reduceOption_cons_of_some] at hHosts hFew ⊢
    have hSplit : done ++ shard :: l.reduceOption = done ++ [shard] ++ l.reduceOption := by simp
    rw [hSplit] at hFew ⊢
    have hLater : ∀ sh ∈ l.reduceOption, ∀ n, sh.primary = some n → 0 ∉ n.host :=
      fun sh hMem => hHosts sh (List.mem_cons_of_mem shard hMem)
    rcases shardPrimary_ok hPrimary with ⟨hNone, rfl, rfl⟩ | ⟨n, hSome, rfl, rfl⟩
    · exact ih (h.skip hNone) hLater hFew h₂
    · obtain ⟨map₂, hSlots, h₃⟩ := Trace.bind_ok.mp h₂
      have hHost := hHosts shard List.mem_cons_self n hSome
      have hNodes : Intern.intern map.nodes n =
          ((done ++ [shard]).filterMap ValkeyReply.primary).foldl Intern.intern [] := by
        rw [h.nodes, List.filterMap_append, List.foldl_append]
        simp [hSome]
      have hLength : (Intern.intern map.nodes n).length < 32768 := by
        rw [← length_primaries, List.filterMap_append, List.foldl_append, ← hNodes] at hFew
        exact (Intern.prefix_foldl_intern _ _).length_le.trans_lt hFew
      exact ih (h.claim hSome hHost hLength hSlots) hLater hFew h₃

end Built

/-! ## Complete replies -/

section Complete

variable {r : ValkeyReply} {l : List (Option ValkeyReply)}

theorem bind_total {α β : Type} {x : Except LoadError α} {f : α → Except LoadError β}
    (hx : ∃ a, x = .ok a) (hf : ∀ a, x = .ok a → ∃ b, f a = .ok b) : ∃ b, x >>= f = .ok b := by
  obtain ⟨a, ha⟩ := hx
  obtain ⟨b, hb⟩ := hf a ha
  exact ⟨b, Trace.bind_ok.mpr ⟨a, ha, hb⟩⟩

theorem child_total {c : Option ValkeyReply} (hl : none ∉ l) (hc : c ∈ l) :
    ∃ d, ValkeyReply.child c = .ok d := by
  cases c with
  | none => exact absurd hc hl
  | some d => exact ⟨d, rfl⟩

theorem fieldFrom_total (name : Bytes) (hl : none ∉ l) :
    ∃ v, ValkeyReply.fieldFrom name l = .ok v ∧ ∀ d, v = some d → some d ∈ l := by
  induction l using ValkeyReply.fieldFrom.induct with
  | case1 k v rest ih =>
    obtain ⟨w, hw, hMem⟩ := ih fun h => hl (by simp [h])
    obtain ⟨k', hk⟩ := child_total hl (c := k) (by simp)
    obtain ⟨v', hv⟩ := child_total hl (c := v) (by simp)
    by_cases hName : k'.str = some name
    · refine ⟨some v', Trace.bind_ok.mpr ⟨k', hk, ?_⟩, ?_⟩
      · rw [if_pos hName]
        exact Trace.bind_ok.mpr ⟨v', hv, rfl⟩
      · rintro d ⟨⟩
        rw [child_ok.mp hv]
        simp
    · refine ⟨w, Trace.bind_ok.mpr ⟨k', hk, ?_⟩, fun d hd => ?_⟩
      · rw [if_neg hName]
        exact hw
      · exact List.mem_cons_of_mem _ (List.mem_cons_of_mem _ (hMem d hd))
  | case2 l hShort => exact ⟨none, ValkeyReply.fieldFrom.eq_2 _ _ hShort, nofun⟩

theorem field_total (h : r.Complete) (name : String) :
    ∃ v, r.field name = .ok v ∧ ∀ d, v = some d → d.Complete := by
  obtain ⟨_, hPresent, hDeep⟩ := h
  unfold ValkeyReply.field
  split
  · obtain ⟨v, hv, hMem⟩ := fieldFrom_total (ascii name) hPresent
    exact ⟨v, hv, fun d hd => hDeep d (hMem d hd)⟩
  · exact ⟨none, rfl, nofun⟩

theorem address_total (h : r.Complete) : ∃ a, BuiltMap.address r = .ok a := by
  have hField : ∀ name, ∃ v, r.field name = .ok v := fun name =>
    (field_total h name).imp fun _ hv => hv.1
  have hHost : ∃ v, BuiltMap.host r = .ok v := by
    refine bind_total (hField "endpoint") fun v _ => ?_
    split
    · exact bind_total (hField "ip") fun w _ => ⟨_, rfl⟩
    · exact ⟨_, rfl⟩
  refine bind_total (hField "role") fun role _ => ?_
  split
  · exact ⟨_, rfl⟩
  · refine bind_total hHost fun host _ => bind_total (hField "port") fun port _ => ?_
    split
    · split <;> exact ⟨_, rfl⟩
    · exact ⟨_, rfl⟩

theorem shardPrimaryFrom_total (map : BuiltMap) (hl : none ∉ l)
    (hDeep : ∀ d, some d ∈ l → d.Complete) : ∃ v, map.shardPrimaryFrom l = .ok v := by
  induction l with
  | nil => exact ⟨_, rfl⟩
  | cons c l ih =>
    obtain ⟨hc, hTail⟩ := not_or.mp (mt List.mem_cons.mpr hl)
    obtain ⟨d, rfl⟩ := Option.ne_none_iff_exists'.mp (Ne.symm hc)
    refine bind_total ⟨d, rfl⟩ fun d' hd => ?_
    obtain rfl : d = d' := Except.ok.inj hd
    refine bind_total (address_total (hDeep d List.mem_cons_self)) fun a _ => ?_
    cases a with
    | none => exact ih hTail fun e he => hDeep e (List.mem_cons_of_mem _ he)
    | some a => exact ⟨_, rfl⟩

theorem shardPrimary_total (map : BuiltMap) (h : r.Complete) :
    ∃ v, map.shardPrimary r = .ok v := by
  obtain ⟨v, hv, hComplete⟩ := field_total h "nodes"
  refine bind_total ⟨v, hv⟩ fun v' hv' => ?_
  obtain rfl : v = v' := Except.ok.inj (hv.symm.trans hv')
  cases v with
  | none => exact ⟨_, rfl⟩
  | some nodes =>
    obtain ⟨_, hPresent, hDeep⟩ := hComplete nodes rfl
    dsimp only
    split
    · exact shardPrimaryFrom_total map hPresent hDeep
    · exact ⟨_, rfl⟩

theorem applyRanges_total (node : Nat) (owner : Fin nslots → Int) (hl : none ∉ l) :
    ∃ v, BuiltMap.applyRanges node l owner = .ok v := by
  induction l, owner using BuiltMap.applyRanges.induct node with
  | case1 lo hi rest owner ih =>
    refine bind_total (child_total hl (by simp)) fun lo' _ => ?_
    refine bind_total (child_total hl (by simp)) fun hi' _ => ?_
    exact ih lo' hi' fun h => hl (by simp [h])
  | case2 l owner hShort => exact ⟨_, BuiltMap.applyRanges.eq_2 _ _ _ hShort⟩

theorem applySlots_total (map : BuiltMap) (h : r.Complete) (node : Nat) :
    ∃ v, map.applySlots r node = .ok v := by
  obtain ⟨v, hv, hComplete⟩ := field_total h "slots"
  refine bind_total ⟨v, hv⟩ fun v' hv' => ?_
  obtain rfl : v = v' := Except.ok.inj (hv.symm.trans hv')
  cases v with
  | none => exact ⟨_, rfl⟩
  | some slots =>
    obtain ⟨_, hPresent, -⟩ := hComplete slots rfl
    dsimp only
    split
    · exact bind_total (applyRanges_total node map.owner hPresent) fun _ _ => ⟨_, rfl⟩
    · exact ⟨_, rfl⟩

theorem loadShards_total (map : BuiltMap) (hl : none ∉ l)
    (hDeep : ∀ d, some d ∈ l → d.Complete) : ∃ v, map.loadShards l = .ok v := by
  induction l generalizing map with
  | nil => exact ⟨_, rfl⟩
  | cons c l ih =>
    obtain ⟨hc, hTail⟩ := not_or.mp (mt List.mem_cons.mpr hl)
    obtain ⟨d, rfl⟩ := Option.ne_none_iff_exists'.mp (Ne.symm hc)
    have hShard : d.Complete := hDeep d List.mem_cons_self
    have hRest : ∀ e, some e ∈ l → e.Complete := fun e he => hDeep e (List.mem_cons_of_mem _ he)
    refine bind_total ⟨d, rfl⟩ fun d' hd => ?_
    obtain rfl : d = d' := Except.ok.inj hd
    refine bind_total (shardPrimary_total map hShard) fun v _ => ?_
    obtain ⟨map₁, _ | node⟩ := v
    · exact ih map₁ hTail hRest
    · exact bind_total (applySlots_total map₁ hShard node) fun map₂ _ => ih map₂ hTail hRest

end Complete

/-! ## The map of a reply -/

section Load

variable {reply : ValkeyReply} {map : BuiltMap}

theorem load_ok (hFew : (reply.shards.filterMap ValkeyReply.primary).dedup.length < 32768)
    (hHosts : ∀ shard ∈ reply.shards, ∀ n, shard.primary = some n → 0 ∉ n.host)
    (hLoad : BuiltMap.load reply = .ok map) : map.Built reply.shards := by
  unfold BuiltMap.load at hLoad
  split at hLoad
  · cases hLoad
  have hStart : BuiltMap.empty.Built [] := ⟨rfl, fun s => .inl ⟨rfl, nofun⟩⟩
  exact loadShards_built hStart hHosts hFew hLoad

theorem load_total (hType : reply.type = .array) (hComplete : reply.Complete) :
    ∃ map, BuiltMap.load reply = .ok map := by
  obtain ⟨_, hPresent, hDeep⟩ := hComplete
  rw [BuiltMap.load, if_neg (not_not.mpr hType)]
  exact loadShards_total _ hPresent hDeep

theorem BuiltMap.Built.nodup {done : List ValkeyReply} (h : map.Built done) : map.nodes.Nodup := by
  rw [h.nodes]
  exact Intern.nodup_foldl_intern List.nodup_nil

theorem BuiltMap.Built.valid {done : List ValkeyReply} (h : map.Built done) (s : Fin nslots) :
    map.owner s = -1 ∨ ∃ i : Fin map.nodes.length, map.owner s = (i : Nat) := by
  rcases h.owner s with ⟨hNone, -⟩ | ⟨_, _, _, _, i, _, _, _, _, hAt, hIs⟩
  · exact .inl hNone
  · exact .inr ⟨⟨i, (List.getElem?_eq_some_iff.mp hAt).1⟩, hIs⟩

end Load

/-- The map of every reply that arrives whole and lists fewer than 32768 primaries, their
hosts free of NUL: each primary is listed once, and a slot belongs to the last shard with
a primary that claims it. -/
theorem load_built (reply : ValkeyReply)
    (hFew : (reply.shards.filterMap ValkeyReply.primary).dedup.length < 32768)
    (hHosts : ∀ shard ∈ reply.shards, ∀ n, shard.primary = some n → 0 ∉ n.host) :
    (reply.type = .array → reply.Complete → ∃ map, BuiltMap.load reply = .ok map) ∧
    ∀ map, BuiltMap.load reply = .ok map →
      map.nodes.Nodup ∧
      (∀ s, map.owner s = -1 ∨ ∃ i : Fin map.nodes.length, map.owner s = (i : Nat)) ∧
      ∀ s, map.Owned reply.shards s := by
  refine ⟨load_total, fun map hLoad => ?_⟩
  have hBuilt := load_ok hFew hHosts hLoad
  exact ⟨hBuilt.nodup, hBuilt.valid, hBuilt.owner⟩

/-! ## Routing by the map -/

/-- A primary as the routing knows it. -/
def ClusterNode.node (n : ClusterNode) : Node := ⟨n.host, n.port.toNat⟩

section Route

variable {map : BuiltMap} {done : List ValkeyReply}

theorem BuiltMap.Built.nodup_node (h : map.Built done) (hPorts : ∀ n ∈ map.nodes, 0 ≤ n.port) :
    (map.nodes.map ClusterNode.node).Nodup := by
  refine List.Nodup.map_on (fun a ha b hb hEq => ?_) h.nodup
  have hPort := congrArg Node.port hEq
  have hA := hPorts a ha
  have hB := hPorts b hb
  simp only [ClusterNode.node] at hPort
  exact ClusterNode.ext (congrArg Node.host hEq) (by omega)

/-- The slot map that a scan routes by. -/
def BuiltMap.slotMap (map : BuiltMap) (hNodup : (map.nodes.map ClusterNode.node).Nodup)
    (hne : map.nodes ≠ []) : SlotMap where
  nodes := map.nodes.map ClusterNode.node
  owner s :=
    if h : 0 ≤ map.owner s ∧ (map.owner s).toNat < (map.nodes.map ClusterNode.node).length then
      some ⟨(map.owner s).toNat, h.2⟩
    else none
  nodup := hNodup
  nonempty := by simpa using hne

/-- A key goes to the primary of the last shard that claims its slot. -/
theorem BuiltMap.Built.route (h : map.Built done) (hPorts : ∀ n ∈ map.nodes, 0 ≤ n.port)
    (hne : map.nodes ≠ []) (key : Bytes) :
    ((map.slotMap (h.nodup_node hPorts) hne).route key = none ∧
      ∀ shard ∈ done, shard.primary ≠ none → ¬shard.Claims (slot key)) ∨
    ∃ before shard after n, done = before ++ shard :: after ∧ shard.primary = some n ∧
      shard.Claims (slot key) ∧
      (∀ later ∈ after, later.primary ≠ none → ¬later.Claims (slot key)) ∧
      (map.slotMap (h.nodup_node hPorts) hne).route key = some n.node := by
  have hNodup := h.nodup_node hPorts
  unfold SlotMap.route
  rcases h.owner (slot key) with
    ⟨hNone, hFree⟩ | ⟨before, shard, after, n, i, hDone, hPrimary, hClaims, hAfter, hAt, hIs⟩
  · refine .inl ⟨?_, hFree⟩
    have hOwner : (map.slotMap hNodup hne).owner (slot key) = none :=
      dif_neg fun hc => by rw [hNone] at hc; omega
    rw [hOwner, Option.map_none]
  · refine .inr ⟨before, shard, after, n, hDone, hPrimary, hClaims, hAfter, ?_⟩
    obtain ⟨hi, hGet⟩ := List.getElem?_eq_some_iff.mp hAt
    have hLength : i < (map.nodes.map ClusterNode.node).length := by simpa using hi
    have hToNat : (map.owner (slot key)).toNat = i := by rw [hIs, Int.toNat_natCast]
    have hOwner : (map.slotMap hNodup hne).owner (slot key) = some ⟨i, hLength⟩ := by
      refine (dif_pos ⟨by omega, by omega⟩).trans ?_
      exact congrArg some (Fin.ext hToNat)
    rw [hOwner, Option.map_some]
    simp [BuiltMap.slotMap, hGet]

end Route

/-! ## A reply with overlapping ranges -/

namespace ValkeyReply

def ofText (t : String) : ValkeyReply := ⟨.string, 0, some (ascii t), []⟩

def ofInt (n : Int) : ValkeyReply := ⟨.integer, n, none, []⟩

def ofArray (l : List ValkeyReply) : ValkeyReply := ⟨.array, 0, none, l.map some⟩

theorem complete_of_leaf {r : ValkeyReply} (h : r.element = []) : r.Complete :=
  .intro r (by simp [h]) (by simp [h])

theorem complete_ofArray {l : List ValkeyReply} (h : ∀ r ∈ l, r.Complete) :
    (ofArray l).Complete := by
  refine .intro _ (by simp [ofArray]) fun d hd => ?_
  obtain ⟨e, he, hSome⟩ := List.mem_map.mp hd
  exact Option.some.inj hSome ▸ h e he

/-- A shard with one master. -/
def ofMaster (host : String) (port lo hi : Int) : ValkeyReply :=
  ofArray [ofText "slots", ofArray [ofInt lo, ofInt hi],
    ofText "nodes", ofArray [ofArray [ofText "role", ofText "master", ofText "ip", ofText host,
      ofText "port", ofInt port]]]

/-- Two shards, the second with slots of the first. -/
def overlapping : ValkeyReply := ofArray [ofMaster "a" 7000 0 10, ofMaster "b" 7001 5 7]

theorem complete_overlapping : overlapping.Complete := by
  have hMaster : ∀ host port lo hi, (ofMaster host port lo hi).Complete := by
    intro host port lo hi
    have hNode : ∀ r ∈ [ofText "role", ofText "master", ofText "ip", ofText host, ofText "port",
        ofInt port], r.Complete := by simp [complete_of_leaf, ofText, ofInt]
    have hSlots : ∀ r ∈ [ofInt lo, ofInt hi], r.Complete := by simp [complete_of_leaf, ofInt]
    apply complete_ofArray
    simp only [List.forall_mem_cons, List.not_mem_nil, false_imp_iff, implies_true, and_true]
    refine ⟨complete_of_leaf rfl, complete_ofArray hSlots, complete_of_leaf rfl, ?_⟩
    apply complete_ofArray
    simpa using complete_ofArray hNode
  apply complete_ofArray
  simp [hMaster]

end ValkeyReply

theorem load_built_overlapping :
    ∃ map, BuiltMap.load .overlapping = .ok map ∧ map.nodes.Nodup ∧
      ∀ s, map.Owned ValkeyReply.overlapping.shards s := by
  have hFew : (ValkeyReply.overlapping.shards.filterMap ValkeyReply.primary).dedup.length <
      32768 := by
    decide
  have hHosts : ∀ shard ∈ ValkeyReply.overlapping.shards, ∀ n, shard.primary = some n →
      0 ∉ n.host := by
    have hBoth : ∀ x ∈ ValkeyReply.overlapping.shards.map ValkeyReply.primary,
        x.any fun n => 0 ∉ n.host := by
      decide
    intro shard hMem n hn
    simpa [hn] using hBoth _ (List.mem_map_of_mem hMem)
  have hAll := load_built .overlapping hFew hHosts
  obtain ⟨map, hLoad⟩ := hAll.1 rfl ValkeyReply.complete_overlapping
  exact ⟨map, hLoad, (hAll.2 map hLoad).1, (hAll.2 map hLoad).2.2⟩

end ValkeyFdw
