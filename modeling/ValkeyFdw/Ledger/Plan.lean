import ValkeyFdw.Server.Command

/-!
# Buffered operations and per-key plans

A `WriteOp` is one row operation of the write buffer. The ledger keeps one
`Plan` for each key a transaction touches, in first-touch order: the checks the
server must answer before anything is written, and the actions that follow. It
also keeps what the transaction knows about each (key, field) and (key, member).
-/

namespace ValkeyFdw

/-! ## Operations -/

/-- The type of the values under a table's keys. -/
inductive TableType where
  | string
  | hash
  | list
  | set
  | zset
  | vector
deriving DecidableEq

/-- The Valkey type behind a table type: the program's `TYPENAME` table. -/
def TableType.valueType : TableType → ValueType
  | .string => .string
  | .hash => .hash
  | .list => .list
  | .set => .set
  | .zset => .zset
  | .vector => .string

inductive OpKind where
  | insert
  | update
  | delete
deriving DecidableEq

/-- A hash field of an operation; no data means the field was set to NULL. -/
structure WriteArg where
  name : Bytes
  data : Option Bytes
deriving DecidableEq

/-- The expiry of a hash field, in milliseconds; none means the field persists. -/
structure TtlArg where
  name : Bytes
  ms : Option Nat
deriving DecidableEq

/-- A column value: a scalar is represented by the text its output function
prints (a `bytea` by its bytes), an interval by its three parts, the last in
microseconds. -/
inductive Datum where
  | scalar (text : Bytes)
  | interval (month day time : Int)
  | array (ndim : Nat) (elems : List (Option Bytes))
deriving DecidableEq

/-- A row: a value or NULL for each column. -/
abbrev Row := List (Option Datum)

/-- One buffered row operation. -/
structure WriteOp where
  kind : OpKind
  relid : Nat
  tabletype : TableType
  level : Nat := 0
  cid : Nat := 0
  key : Bytes
  /-- The name the row had; `none` for an INSERT or a DELETE. -/
  oldkey : Option Bytes := none
  member : Option Bytes := none
  oldmember : Option Bytes := none
  value : Option Bytes := none
  score : Option Bytes := none
  fields : List WriteArg := []
  ttls : List TtlArg := []
  packed : List Bytes := []
  packedShape : Bool := false
  newtup : Option Row := none
  keyset : Option Bytes := none
deriving DecidableEq

/-- Whether the operation moves a row from one Valkey key to another. -/
def WriteOp.isRename (op : WriteOp) : Bool :=
  op.kind = .update && op.oldkey.isSome && op.oldkey ≠ some op.key

/-! ## Plans -/

/-- A condition that phase 1 checks. -/
inductive Check where
  | keyAbsent
  | keyPresent
  | typeOk
  | hfieldAbsent (field : Bytes)
  | hfieldPresent (field : Bytes)
  | smemberAbsent (member : Bytes)
  | smemberPresent (member : Bytes)
  | zmemberAbsent (member : Bytes)
  | zmemberPresent (member : Bytes)
  | lvalueCountGe (value : Bytes) (count : Nat)
  | ksetAbsent (keyset member : Bytes)
  | ksetPresent (keyset member : Bytes)
deriving DecidableEq

/-- A command of phase 2. -/
inductive Action where
  | set (value : Bytes)
  | del
  | hset (field value : Bytes)
  | hdel (field : Bytes)
  | sadd (member : Bytes)
  | srem (member : Bytes)
  | zadd (score member : Bytes)
  | zrem (member : Bytes)
  | rpush (value : Bytes)
  | lrem1 (value : Bytes)
  | rename (oldkey : Bytes)
  | ksetAdd (keyset member : Bytes)
  | ksetRem (keyset member : Bytes)
  | hpexpire (field : Bytes) (ms : Nat)
  | hpersist (field : Bytes)
deriving DecidableEq

/-- What phase 1 asks of the presence of a key. -/
inductive Require where
  | any
  | keyAbsent
  | keyPresent
deriving DecidableEq

/-- The logical state of a key within the transaction. -/
inductive KeyState where
  | created
  | live
  | deleted
deriving DecidableEq

/-- What the program does with one key. -/
structure Plan where
  key : Bytes
  ttype : TableType
  require : Require
  state : KeyState
  checks : List Check
  actions : List Action
  relids : List Nat
deriving DecidableEq

/-- A plan as its first touch leaves it, with the type check every plan carries. -/
def Plan.fresh (key : Bytes) (ttype : TableType) : Plan where
  key := key
  ttype := ttype
  require := .any
  state := .created
  checks := [.typeOk]
  actions := []
  relids := []

def Plan.addCheck (plan : Plan) (c : Check) : Plan := { plan with checks := plan.checks ++ [c] }

def Plan.addAction (plan : Plan) (a : Action) : Plan :=
  { plan with actions := plan.actions ++ [a] }

def Plan.addRelid (plan : Plan) (relid : Nat) : Plan :=
  if relid ∈ plan.relids then plan else { plan with relids := plan.relids ++ [relid] }

/-! ## The ledger -/

/-- What the transaction knows about one field or member of a key. -/
structure MemberEntry where
  present : Bool := false
  count : Nat := 0
  presentRemovals : Nat := 0
deriving DecidableEq

abbrev Members := Bytes → Bytes → Option MemberEntry

def Members.enter (members : Members) (key sub : Bytes) (m : MemberEntry) : Members :=
  Function.update members key (Function.update (members key) sub (some m))

/-- The plans of a transaction in first-touch order, one for each key. -/
structure Ledger where
  plans : List Plan
  members : Members
  nodup : (plans.map Plan.key).Nodup

namespace Ledger

def empty : Ledger where
  plans := []
  members := fun _ _ => none
  nodup := List.nodup_nil

def plan? (L : Ledger) (key : Bytes) : Option Plan := L.plans.find? (·.key = key)

theorem plan?_eq_none {L : Ledger} {key : Bytes} :
    L.plan? key = none ↔ key ∉ L.plans.map Plan.key := by
  simp [plan?]

/-- Append a plan for a key that has none. -/
def append (L : Ledger) (key : Bytes) (ttype : TableType) (h : L.plan? key = none) : Ledger where
  plans := L.plans ++ [.fresh key ttype]
  members := L.members
  nodup := by
    rw [List.map_append, List.nodup_append]
    refine ⟨L.nodup, by simp, ?_⟩
    rintro a ha b hb rfl
    obtain rfl : a = key := by simpa [Plan.fresh] using hb
    exact plan?_eq_none.mp h ha

/-- The plan for a key, created on first touch, and whether this call made it. -/
def planFor (L : Ledger) (key : Bytes) (ttype : TableType) : Plan × Bool × Ledger :=
  match h : L.plan? key with
  | some plan => (plan, false, L)
  | none => (.fresh key ttype, true, L.append key ttype h)

/-- Store a plan back in its place. -/
def setPlan (L : Ledger) (plan : Plan) : Ledger where
  plans := L.plans.map fun p => if p.key = plan.key then plan else p
  members := L.members
  nodup := by
    have hKeys : (L.plans.map fun p => if p.key = plan.key then plan else p).map Plan.key =
        L.plans.map Plan.key := by
      rw [List.map_map]
      refine List.map_congr_left fun p _ => ?_
      by_cases h : p.key = plan.key <;> simp [h]
    rw [hKeys]
    exact L.nodup

end Ledger

/-- The errors of the fold. -/
inductive Refusal where
  | duplicateKey (key : Bytes)
  | duplicateField (key field : Bytes)
  | duplicateMember (key member : Bytes)
  | packedWrite (tabletype : TableType)
  | vectorWrite
deriving DecidableEq

theorem bind_ok {ε α β : Type} {x : Except ε α} {f : α → Except ε β} {b : β} :
    x >>= f = .ok b ↔ ∃ a, x = .ok a ∧ f a = .ok b :=
  Trace.bind_ok

end ValkeyFdw
