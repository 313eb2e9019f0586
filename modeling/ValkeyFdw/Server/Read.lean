import Mathlib.Data.Finset.Sort
import ValkeyFdw.Server.Value

/-!
# The Valkey commands a scan issues

A read command looks at one key and answers with a reply. RESP2 and RESP3 differ
in the container they use and in how they lay out the scores of a sorted set;
`Listing` fixes the protocol of the connection and the order in which the server
lists the members of a set, which is unspecified, and of a sorted set.
-/

namespace ValkeyFdw

/-- A reply as the client library hands it over; a double arrives with its text. -/
inductive Resp where
  | nil
  | integer (n : Int)
  | string (data : Bytes)
  | array (elems : List Resp)
  | map (elems : List Resp)
  | set (elems : List Resp)
  | wrongType

/-- The protocol of a connection. -/
inductive Protocol where
  | resp2
  | resp3
deriving DecidableEq

/-- The protocol of a connection, and the order of the server's own listings:
every member once. -/
class Listing where
  protocol : Protocol
  members : Finset Bytes → List Bytes
  ranked : Scores → List Bytes
  members_nodup : ∀ s, (members s).Nodup
  mem_members : ∀ {s x}, x ∈ members s ↔ x ∈ s
  ranked_nodup : ∀ z, (ranked z).Nodup
  mem_ranked : ∀ {z x}, x ∈ ranked z ↔ x ∈ z

theorem Listing.members_singleton [Listing] (x : Bytes) : members {x} = [x] := by
  have hOnly : ∀ y ∈ members {x}, y = x := fun y hy => Finset.mem_singleton.mp (mem_members.mp hy)
  have hLength := List.nodup_iff_count_le_one.mp (members_nodup {x}) x
  rw [List.eq_replicate_of_mem hOnly, List.count_replicate_self] at hLength
  have hMem : x ∈ members {x} := mem_members.mpr (Finset.mem_singleton_self x)
  have hPos := List.length_pos_of_mem hMem
  rw [List.eq_replicate_of_mem hOnly, show (members {x}).length = 1 by omega]
  rfl

/-- A server that lists everything by name. -/
@[reducible] def listingByName (protocol : Protocol) : Listing where
  protocol := protocol
  members s := s.sort (· ≤ ·)
  ranked z := z.keys.sort (· ≤ ·)
  members_nodup s := s.sort_nodup _
  mem_members := Finset.mem_sort _
  ranked_nodup z := z.keys.sort_nodup _
  mem_ranked := (Finset.mem_sort _).trans Finmap.mem_keys

namespace Server

/-- `GET`. -/
def get : Option Value → Resp
  | none => .nil
  | some (.string data) => .string data
  | some _ => .wrongType

/-- A command that reads a collection; an absent key is the empty one. -/
def onRead {T : Type} (C : Collection T) (answer : T → Resp) (e : Option Value) : Resp :=
  match C.read e with
  | none => .wrongType
  | some t => answer t

section

variable [Listing]

/-- RESP2 answers with an array where RESP3 has a container of its own. -/
def container (resp3 : List Resp → Resp) (elems : List Resp) : Resp :=
  match Listing.protocol with
  | .resp2 => .array elems
  | .resp3 => resp3 elems

def hgetall : Option Value → Resp :=
  onRead hashes fun h => container .map <| (Listing.members h.keys).flatMap fun f =>
    [.string f, ((h.lookup f).elim .nil fun x => .string x.data)]

def smembers : Option Value → Resp :=
  onRead sets fun s => container .set ((Listing.members s).map .string)

/-- `ZRANGE key 0 -1`. -/
def zrange : Option Value → Resp :=
  onRead zsets fun z => .array ((Listing.ranked z).map .string)

/-- `ZRANGE key 0 -1 WITHSCORES`: RESP2 alternates member and score, RESP3 nests
a pair for each member. -/
def zrangeWithScores : Option Value → Resp :=
  onRead zsets fun z =>
    let pair (m : Bytes) : List Resp := [.string m, (z.lookup m).elim .nil .string]
    match Listing.protocol with
    | .resp2 => .array ((Listing.ranked z).flatMap pair)
    | .resp3 => .array ((Listing.ranked z).map fun m => .array (pair m))

end

def hmget (fields : List Bytes) : Option Value → Resp :=
  onRead hashes fun h => .array (fields.map fun f => (h.lookup f).elim .nil fun x => .string x.data)

def hlen : Option Value → Resp := onRead hashes fun h => .integer h.keys.card

/-- What `HPTTL` answers for one field: -2 without the field, -1 without an expiry. -/
def remaining (now : Nat) : Option HField → Int
  | none => -2
  | some ⟨_, none⟩ => -1
  | some ⟨_, some at'⟩ => at' - now

def hpttl (now : Nat) (fields : List Bytes) : Option Value → Resp :=
  onRead hashes fun h => .array (fields.map fun f => .integer (remaining now (h.lookup f)))

/-- `LRANGE key 0 -1`. -/
def lrange : Option Value → Resp := onRead lists fun l => .array (l.map .string)

def sismember (member : Bytes) : Option Value → Resp :=
  onRead sets fun s => .integer (if member ∈ s then 1 else 0)

end Server

end ValkeyFdw
