import ValkeyFdw.Ledger.Plan

/-!
# Folding one operation into the ledger

`note` folds one operation into the plan of its key. A precondition comes from
the first touch of a thing, not from every touch: at the key, at (key, field)
for hashes, at (key, member) for sets and sorted sets, and as an occurrence
count for lists. `foldOps` folds a whole buffer.
-/

namespace ValkeyFdw

/-! ## Key-level rules -/

/-- Maintain the keyset index, when the table has one. -/
def Plan.keyset (plan : Plan) (op : WriteOp) (key : Bytes) (add : Bool) : Plan :=
  match op.keyset with
  | none => plan
  | some s => plan.addAction (if add then .ksetAdd s key else .ksetRem s key)

/-- Establish the precondition, if this is the first operation on the key. -/
def Plan.precondition (plan : Plan) (first : Bool) (kind : OpKind) (renameTarget : Bool) : Plan :=
  if first then
    if kind = .insert ∨ renameTarget then
      { plan.addCheck .keyAbsent with require := .keyAbsent, state := .created }
    else
      { plan.addCheck .keyPresent with require := .keyPresent, state := .live }
  else plan

/-- The duplicate rule: only a string key refuses a second INSERT outright. -/
def checkDuplicate (plan : Plan) (op : WriteOp) (first : Bool) : Except Refusal Unit :=
  if op.kind = .insert ∧ ¬first ∧ plan.state ≠ .deleted ∧ plan.ttype = .string then
    .error (.duplicateKey op.key)
  else .ok ()

/-- The destination's half of a rename: move the key, then the index entry. -/
def Plan.foldRename (plan : Plan) (op : WriteOp) : Plan :=
  match op.oldkey with
  | none => plan
  | some oldkey =>
    if op.isRename then
      ((plan.addAction (.rename oldkey)).keyset op oldkey false).keyset op op.key true
    else plan

/-- The source's half of a rename: a plan of its own that requires the old name. -/
def Ledger.foldRename (L : Ledger) (op : WriteOp) : Ledger :=
  match op.oldkey with
  | none => L
  | some oldkey =>
    if op.isRename then
      let (old, firstold, L) := L.planFor oldkey op.tabletype
      L.setPlan ((old.addRelid op.relid).precondition firstold .update false)
    else L

/-! ## The shapes -/

/-- The first touch of a field or member leaves a check, unless the transaction
creates the key; a later INSERT of one that is present is a duplicate. -/
def subPrecondition (plan : Plan) (members : Members) (op : WriteOp) (sub : Bytes)
    (absent present : Check) (duplicate : Refusal) : Except Refusal (Plan × MemberEntry) :=
  match members op.key sub with
  | none =>
    if plan.state = .created then .ok (plan, {})
    else .ok (plan.addCheck (if op.kind = .insert then absent else present), {})
  | some m => if op.kind = .insert ∧ m.present then .error duplicate else .ok (plan, m)

/-- One field: its precondition, and the action that sets or clears it. -/
def foldField (op : WriteOp) (f : WriteArg) (plan : Plan) (members : Members) :
    Except Refusal (Plan × Members) := do
  let (plan, m) ← subPrecondition plan members op f.name (.hfieldAbsent f.name)
    (.hfieldPresent f.name) (.duplicateField op.key f.name)
  match f.data with
  | none =>
    return (plan.addAction (.hdel f.name), members.enter op.key f.name { m with present := false })
  | some v =>
    return (plan.addAction (.hset f.name v), members.enter op.key f.name { m with present := true })

def foldFields (op : WriteOp) : List WriteArg → Plan → Members → Except Refusal (Plan × Members)
  | [], plan, members => .ok (plan, members)
  | f :: fs, plan, members => do
    let (plan, members) ← foldField op f plan members
    foldFields op fs plan members

def ttlAction (t : TtlArg) : Action :=
  match t.ms with
  | none => .hpersist t.name
  | some ms => .hpexpire t.name ms

def foldTtls (op : WriteOp) (plan : Plan) : Plan :=
  op.ttls.foldl (fun plan t => plan.addAction (ttlAction t)) plan

/-- A hash operation is its fields and then their expiries, in that order. -/
def foldHash (op : WriteOp) (plan : Plan) (members : Members) :
    Except Refusal (Plan × Members) := do
  let (plan, members) ← foldFields op op.fields plan members
  return (foldTtls op plan, members)

def addMember (isZset : Bool) (op : WriteOp) (member : Bytes) : Action :=
  if isZset then .zadd (op.score.getD [0x30]) member else .sadd member

def remMember (isZset : Bool) (member : Bytes) : Action :=
  if isZset then .zrem member else .srem member

def memberPrecondition (plan : Plan) (members : Members) (op : WriteOp) (isZset : Bool)
    (idm : Bytes) : Except Refusal (Plan × MemberEntry) :=
  subPrecondition plan members op idm
    (if isZset then .zmemberAbsent idm else .smemberAbsent idm)
    (if isZset then .zmemberPresent idm else .smemberPresent idm)
    (.duplicateMember op.key idm)

/-- One member of a set or sorted set; a member rename is a remove and an add. -/
def foldMember (op : WriteOp) (plan : Plan) (members : Members) :
    Except Refusal (Plan × Members) :=
  match op.member with
  | none => .ok (plan, members)
  | some member => do
    let isZset := plan.ttype = .zset
    let idm := op.oldmember.getD member
    let (plan, m) ← memberPrecondition plan members op isZset idm
    if op.kind = .delete then
      return (plan.addAction (remMember isZset member),
        members.enter op.key idm { m with present := false })
    else if op.kind = .update ∧ idm ≠ member then
      let plan := plan.addAction (remMember isZset idm)
      let members := members.enter op.key idm { m with present := false }
      let m := (members op.key member).getD {}
      return (plan.addAction (addMember isZset op member),
        members.enter op.key member { m with present := true })
    else
      return (plan.addAction (addMember isZset op member),
        members.enter op.key idm { m with present := true })

/-- One element of a list: presence is replaced by a count, because a value may
appear more than once. -/
def foldList (op : WriteOp) (plan : Plan) (members : Members) : Plan × Members :=
  match op.member with
  | none => (plan, members)
  | some member =>
    let m := (members op.key member).getD {}
    if op.kind = .delete then
      if 0 < m.count then
        (plan.addAction (.lrem1 member),
          members.enter op.key member { m with count := m.count - 1 })
      else
        let n := m.presentRemovals + 1
        ((plan.addCheck (.lvalueCountGe member n)).addAction (.lrem1 member),
          members.enter op.key member { m with presentRemovals := n })
    else
      (plan.addAction (.rpush member), members.enter op.key member { m with count := m.count + 1 })

/-- The fields of a packed hash, taken two elements at a time. -/
def packPairs : List Bytes → List Action
  | field :: value :: rest => .hset field value :: packPairs rest
  | _ => []

/-- The rebuild of a packed row; the other table types are refused before. -/
def packedElements (op : WriteOp) : Except Refusal (List Action) :=
  match op.tabletype with
  | .list => .ok (op.packed.map .rpush)
  | .set => .ok (op.packed.map .sadd)
  | .hash => .ok (packPairs op.packed)
  | .string | .zset | .vector =>
    if op.packed = [] then .ok [] else .error (.packedWrite op.tabletype)

/-- A packed write says what the key should hold afterwards: delete, then rebuild. -/
def foldPacked (op : WriteOp) (plan : Plan) : Except Refusal Plan := do
  let elements ← packedElements op
  return { plan with actions := plan.actions ++ .del :: elements }

/-! ## One operation -/

/-- Whether a DELETE removes the whole key: the shapes whose row is the key. -/
def WriteOp.deletesKey (op : WriteOp) : Bool :=
  op.kind = .delete && (op.tabletype = .string || op.tabletype = .hash || op.packedShape)

/-- What follows the write itself: the index entry of an INSERT, and the key is back. -/
def Plan.finish (plan : Plan) (op : WriteOp) : Plan :=
  let plan := if op.kind = .insert then plan.keyset op op.key true else plan
  if plan.state = .deleted then { plan with state := .live } else plan

/-- The write of an operation, by the type of its table. -/
def foldShape (op : WriteOp) (plan : Plan) (members : Members) :
    Except Refusal (Plan × Members) :=
  match op.tabletype with
  | .string =>
    match op.value with
    | some v => .ok (plan.addAction (.set v), members)
    | none => .ok (plan, members)
  | .hash => foldHash op plan members
  | .set | .zset => foldMember op plan members
  | .list => .ok (foldList op plan members)
  | .vector => .error .vectorWrite

/-- The write of an operation, once the plan of its key has its precondition. -/
def foldWrite (op : WriteOp) (plan : Plan) (members : Members) :
    Except Refusal (Plan × Members) := do
  if op.deletesKey then
    return ({ (plan.addAction .del).keyset op op.key false with state := .deleted }, members)
  else if op.packedShape then
    let plan ← foldPacked op plan
    return (plan.finish op, members)
  else
    let (plan, members) ← foldShape op plan members
    return (plan.finish op, members)

/-- Fold one operation into the ledger. -/
def note (op : WriteOp) (L : Ledger) : Except Refusal Ledger := do
  let (plan, first, L) := L.planFor op.key op.tabletype
  let plan := plan.addRelid op.relid
  checkDuplicate plan op first
  let plan := plan.precondition first op.kind op.isRename
  let L := L.foldRename op
  let (plan, members) ← foldWrite op (plan.foldRename op) L.members
  return { L.setPlan plan with members := members }

/-- Fold a buffer, first operation first. -/
def foldOps (ops : List WriteOp) (L : Ledger) : Except Refusal Ledger := Trace.run note ops L

end ValkeyFdw
