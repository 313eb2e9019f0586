import ValkeyFdw.Ledger.Fold

/-!
# What one fold step does to the ledger

`WriteOp.actions` lists the actions of one operation on its own. The ledger is
described by its keys in first-touch order and by the plan of each key; `note`
then extends the keys, appends the operation's actions to the plan of its key
and leaves every other plan's actions alone.

* `foldWrite_spec`: the fold of the write itself;
* `note_spec`: the whole step, as a statement about keys and plans;
* `note_actionsOf`: the actions of every key after a step.
-/

namespace ValkeyFdw

/-! ## The actions of one operation -/

namespace WriteOp

variable (op : WriteOp)

def keysetActions (key : Bytes) (add : Bool) : List Action :=
  match op.keyset with
  | none => []
  | some s => [if add then .ksetAdd s key else .ksetRem s key]

/-- A rename moves the whole key, then the index entry. -/
def renameActions : List Action :=
  match op.oldkey with
  | none => []
  | some oldkey =>
    if op.isRename then
      .rename oldkey :: (op.keysetActions oldkey false ++ op.keysetActions op.key true)
    else []

def fieldAction (f : WriteArg) : Action :=
  match f.data with
  | none => .hdel f.name
  | some v => .hset f.name v

def memberActions (isZset : Bool) : List Action :=
  match op.member with
  | none => []
  | some member =>
    let idm := op.oldmember.getD member
    if op.kind = .delete then [remMember isZset member]
    else if op.kind = .update ∧ idm ≠ member then
      [remMember isZset idm, addMember isZset op member]
    else [addMember isZset op member]

def listActions : List Action :=
  match op.member with
  | none => []
  | some member => if op.kind = .delete then [.lrem1 member] else [.rpush member]

def packedActions : List Action :=
  match op.tabletype with
  | .list => op.packed.map .rpush
  | .set => op.packed.map .sadd
  | .hash => packPairs op.packed
  | .string | .zset | .vector => []

def shapeActions (isZset : Bool) : List Action :=
  match op.tabletype with
  | .string => (op.value.map Action.set).toList
  | .hash => op.fields.map fieldAction ++ op.ttls.map ttlAction
  | .set | .zset => op.memberActions isZset
  | .list => op.listActions
  | .vector => []

/-- The write of the operation and the index entry that goes with it. -/
def writeActions (isZset : Bool) : List Action :=
  if op.deletesKey then .del :: op.keysetActions op.key false
  else
    (if op.packedShape then .del :: op.packedActions else op.shapeActions isZset) ++
      if op.kind = .insert then op.keysetActions op.key true else []

/-- The actions that an operation adds to the ledger. -/
def actions (isZset : Bool) : List Action := op.renameActions ++ op.writeActions isZset

/-- The Valkey commands of the operation on its own. -/
def commands : List (Bytes × Action) :=
  (op.actions (op.tabletype = .zset)).map fun a => (op.key, a)

end WriteOp

variable {op : WriteOp} {plan plan' : Plan} {members members' : Members}

theorem WriteOp.isRename_iff :
    op.isRename = true ↔
      op.kind = .update ∧ ∃ oldkey, op.oldkey = some oldkey ∧ oldkey ≠ op.key := by
  unfold isRename
  cases op.oldkey <;> simp

theorem WriteOp.renameActions_of_not (h : op.isRename = false) :
    op.renameActions = [] := by
  unfold renameActions
  split <;> simp [h]

/-- The keys an operation touches: its own, and the old name of a rename. -/
def WriteOp.names (op : WriteOp) : List Bytes :=
  op.key :: if op.isRename then op.oldkey.toList else []

theorem WriteOp.key_notMem_names_tail (op : WriteOp) : op.key ∉ op.names.tail := by
  intro h
  by_cases hRen : op.isRename = true
  · obtain ⟨-, old, hOld, hne⟩ := isRename_iff.mp hRen
    simp only [names, hRen, hOld, if_true, List.tail_cons, Option.toList_some,
      List.mem_singleton] at h
    exact hne h.symm
  · simp [names, hRen] at h

/-- Whether the operation writes entries of its index. -/
def WriteOp.editsIndex (op : WriteOp) : Bool :=
  op.isRename || op.kind = .insert || op.deletesKey

/-- The actions an operation can have, with what each says about the operation;
`z` tells whether the fold took its key for a sorted set. -/
inductive OpAction (op : WriteOp) (z : Bool) : Action → Prop where
  | rename {old : Bytes} (hRen : op.isRename = true) (hOld : op.oldkey = some old) :
      OpAction op z (.rename old)
  | ksetAdd {s k : Bytes} (hs : op.keyset = some s) (hk : k ∈ op.names)
      (hEdits : op.editsIndex = true) : OpAction op z (.ksetAdd s k)
  | ksetRem {s k : Bytes} (hs : op.keyset = some s) (hk : k ∈ op.names)
      (hEdits : op.editsIndex = true) : OpAction op z (.ksetRem s k)
  | del (h : op.deletesKey = true ∨ op.packedShape = true) : OpAction op z .del
  | set {v : Bytes} (hType : op.tabletype = .string) (hValue : op.value = some v) :
      OpAction op z (.set v)
  | hset {f v : Bytes} (hType : op.tabletype = .hash) : OpAction op z (.hset f v)
  | hdel {f : Bytes} (hType : op.tabletype = .hash) : OpAction op z (.hdel f)
  | hpexpire {t : TtlArg} {ms : Nat} (hType : op.tabletype = .hash) (ht : t ∈ op.ttls)
      (hms : t.ms = some ms) : OpAction op z (.hpexpire t.name ms)
  | hpersist {f : Bytes} (hType : op.tabletype = .hash) : OpAction op z (.hpersist f)
  | sadd {m : Bytes} (hType : op.tabletype = .set ∨ op.tabletype = .zset ∧ z = false) :
      OpAction op z (.sadd m)
  | srem {m : Bytes} (hType : op.tabletype = .set ∨ op.tabletype = .zset) (hz : z = false) :
      OpAction op z (.srem m)
  | zadd {m : Bytes} (hType : op.tabletype = .set ∨ op.tabletype = .zset) (hz : z = true) :
      OpAction op z (.zadd (op.score.getD [0x30]) m)
  | zrem {m : Bytes} (hType : op.tabletype = .set ∨ op.tabletype = .zset) (hz : z = true) :
      OpAction op z (.zrem m)
  | rpush {v : Bytes} (hType : op.tabletype = .list) : OpAction op z (.rpush v)
  | lrem1 {v : Bytes} (hType : op.tabletype = .list) : OpAction op z (.lrem1 v)

section Inversion

variable {op : WriteOp} {z : Bool} {a : Action}

theorem opAction_keyset {key : Bytes} {add : Bool} (hKey : key ∈ op.names)
    (hEdits : op.editsIndex = true) (h : a ∈ op.keysetActions key add) : OpAction op z a := by
  unfold WriteOp.keysetActions at h
  split at h
  · cases h
  · rename_i s hs
    rw [List.mem_singleton] at h
    subst h
    cases add with
    | true => exact .ksetAdd hs hKey hEdits
    | false => exact .ksetRem hs hKey hEdits

theorem opAction_rem (hType : op.tabletype = .set ∨ op.tabletype = .zset) (m : Bytes) :
    OpAction op z (remMember z m) := by
  cases z with
  | true => exact .zrem hType rfl
  | false => exact .srem hType rfl

theorem opAction_add (hType : op.tabletype = .set ∨ op.tabletype = .zset) (m : Bytes) :
    OpAction op z (addMember z op m) := by
  cases z with
  | true => exact .zadd hType rfl
  | false => exact .sadd (hType.imp id fun h => ⟨h, rfl⟩)

theorem opAction_member (hType : op.tabletype = .set ∨ op.tabletype = .zset)
    (h : a ∈ op.memberActions z) : OpAction op z a := by
  unfold WriteOp.memberActions at h
  split at h
  · cases h
  · dsimp only at h
    split at h
    · rw [List.mem_singleton.mp h]
      exact opAction_rem hType _
    · split at h
      · rcases List.mem_pair.mp h with rfl | rfl
        · exact opAction_rem hType _
        · exact opAction_add hType _
      · rw [List.mem_singleton.mp h]
        exact opAction_add hType _

theorem opAction_packPairs (hType : op.tabletype = .hash) {l : List Bytes}
    (h : a ∈ packPairs l) : OpAction op z a := by
  induction l using packPairs.induct with
  | case1 f v rest ih =>
    rcases List.mem_cons.mp h with rfl | h
    · exact .hset hType
    · exact ih h
  | case2 l hl =>
    rw [packPairs] at h
    · cases h
    · exact hl

theorem opAction_packed (h : a ∈ op.packedActions) : OpAction op z a := by
  unfold WriteOp.packedActions at h
  split at h
  · rename_i hType
    obtain ⟨v, -, rfl⟩ := List.mem_map.mp h
    exact .rpush hType
  · rename_i hType
    obtain ⟨v, -, rfl⟩ := List.mem_map.mp h
    exact .sadd (.inl hType)
  · rename_i hType
    exact opAction_packPairs hType h
  all_goals cases h

theorem opAction_shape (h : a ∈ op.shapeActions z) : OpAction op z a := by
  unfold WriteOp.shapeActions at h
  split at h
  · rename_i hType
    obtain ⟨v, hv, rfl⟩ : ∃ v, op.value = some v ∧ Action.set v = a := by simpa using h
    exact .set hType hv
  · rename_i hType
    rcases List.mem_append.mp h with h | h
    · obtain ⟨f, -, rfl⟩ := List.mem_map.mp h
      unfold WriteOp.fieldAction
      split
      · exact .hdel hType
      · exact .hset hType
    · obtain ⟨t, ht, rfl⟩ := List.mem_map.mp h
      unfold ttlAction
      split
      · exact .hpersist hType
      · exact .hpexpire hType ht ‹_›
  · exact opAction_member (.inl ‹_›) h
  · exact opAction_member (.inr ‹_›) h
  · rename_i hType
    unfold WriteOp.listActions at h
    split at h
    · cases h
    · split at h
      · rw [List.mem_singleton.mp h]
        exact .lrem1 hType
      · rw [List.mem_singleton.mp h]
        exact .rpush hType
  · cases h

/-- Everything an operation's actions can be. -/
theorem opAction_of_mem (h : a ∈ op.actions z) : OpAction op z a := by
  have hOwn : op.key ∈ op.names := List.mem_cons_self
  rcases List.mem_append.mp h with h | h
  · unfold WriteOp.renameActions at h
    split at h
    · cases h
    · rename_i old hOld
      split at h
      · rename_i hRen
        have hEdits : op.editsIndex = true := by simp [WriteOp.editsIndex, hRen]
        have hSource : old ∈ op.names := by simp [WriteOp.names, hRen, hOld]
        rcases List.mem_cons.mp h with rfl | h
        · exact .rename hRen hOld
        · rcases List.mem_append.mp h with h | h
          · exact opAction_keyset hSource hEdits h
          · exact opAction_keyset hOwn hEdits h
      · cases h
  · unfold WriteOp.writeActions at h
    split at h
    · rename_i hDel
      rcases List.mem_cons.mp h with rfl | h
      · exact .del (.inl hDel)
      · exact opAction_keyset hOwn (by simp [WriteOp.editsIndex, hDel]) h
    · rcases List.mem_append.mp h with h | h
      · split at h
        · rename_i hPacked
          rcases List.mem_cons.mp h with rfl | h
          · exact .del (.inr hPacked)
          · exact opAction_packed h
        · exact opAction_shape h
      · split at h
        · rename_i hIns
          exact opAction_keyset hOwn (by simp [WriteOp.editsIndex, hIns]) h
        · cases h

end Inversion

/-! ## The fold of the write -/

/-- The plan `q` is `p` with actions appended; its key and type are unchanged,
and no check is lost. -/
structure Plan.Extends (p q : Plan) (actions : List Action) : Prop where
  key : q.key = p.key
  ttype : q.ttype = p.ttype
  actions : q.actions = p.actions ++ actions
  checks : p.checks ⊆ q.checks

namespace Plan.Extends

variable {p q r : Plan} {as bs : List Action}

theorem refl (p : Plan) : p.Extends p [] :=
  ⟨rfl, rfl, (List.append_nil _).symm, List.Subset.refl _⟩

theorem trans (h : p.Extends q as) (h' : q.Extends r bs) : p.Extends r (as ++ bs) :=
  ⟨h'.key.trans h.key, h'.ttype.trans h.ttype, by rw [h'.actions, h.actions, List.append_assoc],
    List.Subset.trans h.checks h'.checks⟩

theorem addAction (p : Plan) (a : Action) : p.Extends (p.addAction a) [a] :=
  ⟨rfl, rfl, rfl, List.Subset.refl _⟩

theorem addCheck (p : Plan) (c : Check) : p.Extends (p.addCheck c) [] :=
  ⟨rfl, rfl, (List.append_nil _).symm, List.subset_append_left _ _⟩

theorem addRelid (p : Plan) (relid : Nat) : p.Extends (p.addRelid relid) [] := by
  unfold Plan.addRelid
  split
  · exact refl p
  · exact ⟨rfl, rfl, (List.append_nil _).symm, List.Subset.refl _⟩

theorem withState (h : p.Extends q as) (state : KeyState) :
    p.Extends { q with state := state } as := ⟨h.key, h.ttype, h.actions, h.checks⟩

theorem keyset (p : Plan) (op : WriteOp) (key : Bytes) (add : Bool) :
    p.Extends (p.keyset op key add) (op.keysetActions key add) := by
  unfold Plan.keyset WriteOp.keysetActions
  cases op.keyset with
  | none => exact refl p
  | some s => exact addAction p _

theorem precondition (p : Plan) (first : Bool) (kind : OpKind) (renameTarget : Bool) :
    p.Extends (p.precondition first kind renameTarget) [] := by
  unfold Plan.precondition
  split
  · split <;> exact ⟨rfl, rfl, (List.append_nil _).symm, List.subset_append_left _ _⟩
  · exact refl p

theorem foldRename (p : Plan) (op : WriteOp) :
    p.Extends (p.foldRename op) op.renameActions := by
  unfold Plan.foldRename WriteOp.renameActions
  cases op.oldkey with
  | none => exact refl p
  | some oldkey =>
    dsimp only
    split
    · exact (addAction p (.rename oldkey)).trans
        ((keyset _ op oldkey false).trans (keyset _ op op.key true))
    · exact refl p

theorem finish (p : Plan) (op : WriteOp) :
    p.Extends (p.finish op) (if op.kind = .insert then op.keysetActions op.key true else []) := by
  have hKeyset : p.Extends (if op.kind = .insert then p.keyset op op.key true else p)
      (if op.kind = .insert then op.keysetActions op.key true else []) := by
    split
    · exact keyset p op _ true
    · exact refl p
  unfold Plan.finish
  generalize (if op.kind = .insert then p.keyset op op.key true else p) = q at hKeyset ⊢
  dsimp only
  split
  · exact hKeyset.withState .live
  · exact hKeyset

end Plan.Extends

theorem subPrecondition_extends {sub : Bytes} {absent present : Check} {dup : Refusal}
    {m : MemberEntry} (h : subPrecondition plan members op sub absent present dup = .ok (plan', m))
    :
    plan.Extends plan' [] := by
  unfold subPrecondition at h
  split at h
  · split at h
    · cases h
      exact .refl plan
    · cases h
      exact .addCheck plan _
  · split at h
    · cases h
    · cases h
      exact .refl plan

theorem foldField_extends {f : WriteArg} (h : foldField op f plan members = .ok (plan', members')) :
    plan.Extends plan' [WriteOp.fieldAction f] := by
  obtain ⟨⟨plan₁, m⟩, h₁, h₂⟩ := bind_ok.mp h
  have hPre := subPrecondition_extends h₁
  unfold WriteOp.fieldAction
  dsimp only at h₂
  cases hData : f.data with
  | none =>
    rw [hData] at h₂
    cases h₂
    exact hPre.trans (.addAction plan₁ _)
  | some v =>
    rw [hData] at h₂
    cases h₂
    exact hPre.trans (.addAction plan₁ _)

theorem foldFields_extends {fs : List WriteArg}
    (h : foldFields op fs plan members = .ok (plan', members')) :
    plan.Extends plan' (fs.map WriteOp.fieldAction) := by
  induction fs generalizing plan members with
  | nil =>
    cases h
    exact .refl _
  | cons f fs ih =>
    obtain ⟨⟨plan₁, members₁⟩, h₁, h₂⟩ := bind_ok.mp h
    exact (foldField_extends h₁).trans (ih h₂)

theorem foldTtls_extends (op : WriteOp) (plan : Plan) :
    plan.Extends (foldTtls op plan) (op.ttls.map ttlAction) := by
  unfold foldTtls
  induction op.ttls generalizing plan with
  | nil => exact .refl _
  | cons t ts ih => exact (Plan.Extends.addAction _ (ttlAction t)).trans (ih _)

theorem foldHash_extends (h : foldHash op plan members = .ok (plan', members')) :
    plan.Extends plan' (op.fields.map WriteOp.fieldAction ++ op.ttls.map ttlAction) := by
  obtain ⟨⟨plan₁, members₁⟩, h₁, h₂⟩ := bind_ok.mp h
  cases h₂
  exact (foldFields_extends h₁).trans (foldTtls_extends op plan₁)

theorem foldMember_extends (h : foldMember op plan members = .ok (plan', members')) :
    plan.Extends plan' (op.memberActions (plan.ttype = .zset)) := by
  unfold foldMember at h
  unfold WriteOp.memberActions
  cases hMember : op.member with
  | none =>
    rw [hMember] at h
    cases h
    exact .refl plan
  | some member =>
    rw [hMember] at h
    obtain ⟨⟨plan₁, m⟩, h₁, h₂⟩ := bind_ok.mp h
    have hPre : plan.Extends plan₁ [] := subPrecondition_extends h₁
    dsimp only at h₂ ⊢
    by_cases hDel : op.kind = .delete
    · rw [if_pos hDel] at h₂ ⊢
      cases h₂
      exact hPre.trans (.addAction plan₁ _)
    · rw [if_neg hDel] at h₂ ⊢
      by_cases hMove : op.kind = .update ∧ op.oldmember.getD member ≠ member
      · rw [if_pos hMove] at h₂ ⊢
        cases h₂
        exact hPre.trans ((Plan.Extends.addAction plan₁ _).trans (.addAction _ _))
      · rw [if_neg hMove] at h₂ ⊢
        cases h₂
        exact hPre.trans (.addAction plan₁ _)

theorem foldList_extends (op : WriteOp) (plan : Plan) (members : Members) :
    plan.Extends (foldList op plan members).1 op.listActions := by
  unfold foldList WriteOp.listActions
  cases op.member with
  | none => exact .refl plan
  | some member =>
    dsimp only
    by_cases hDel : op.kind = .delete
    · rw [if_pos hDel, if_pos hDel]
      split
      · exact .addAction plan _
      · exact (Plan.Extends.addCheck plan _).trans (.addAction _ _)
    · rw [if_neg hDel, if_neg hDel]
      exact .addAction plan _

theorem packedElements_ok {as : List Action} (h : packedElements op = .ok as) :
    as = op.packedActions := by
  unfold packedElements at h
  unfold WriteOp.packedActions
  cases hType : op.tabletype <;> simp only [hType] at h ⊢ <;> first
    | exact (Except.ok.inj h).symm
    | (split at h
       · exact (Except.ok.inj h).symm
       · cases h)

theorem foldPacked_extends (h : foldPacked op plan = .ok plan') :
    plan.Extends plan' (.del :: op.packedActions) := by
  obtain ⟨as, h₁, h₂⟩ := bind_ok.mp h
  cases h₂
  rw [← packedElements_ok h₁]
  exact ⟨rfl, rfl, rfl, List.Subset.refl _⟩

theorem foldShape_extends (h : foldShape op plan members = .ok (plan', members')) :
    plan.Extends plan' (op.shapeActions (plan.ttype = .zset)) := by
  unfold foldShape at h
  unfold WriteOp.shapeActions
  cases hType : op.tabletype with
  | string =>
    rw [hType] at h
    cases hValue : op.value with
    | none =>
      rw [hValue] at h
      cases h
      exact .refl plan
    | some v =>
      rw [hValue] at h
      cases h
      exact .addAction plan _
  | hash =>
    rw [hType] at h
    exact foldHash_extends h
  | set =>
    rw [hType] at h
    exact foldMember_extends h
  | zset =>
    rw [hType] at h
    exact foldMember_extends h
  | list =>
    rw [hType] at h
    rw [show plan' = (foldList op plan members).1 from
      congrArg Prod.fst (Except.ok.inj h).symm]
    exact foldList_extends op plan members
  | vector =>
    rw [hType] at h
    cases h

/-- The write of an operation appends exactly the operation's own actions. -/
theorem foldWrite_extends (h : foldWrite op plan members = .ok (plan', members')) :
    plan.Extends plan' (op.writeActions (plan.ttype = .zset)) := by
  unfold foldWrite at h
  unfold WriteOp.writeActions
  by_cases hDel : op.deletesKey
  · rw [if_pos hDel] at h ⊢
    cases h
    exact ((Plan.Extends.addAction plan .del).trans (.keyset _ op _ false)).withState .deleted
  · rw [if_neg hDel] at h ⊢
    by_cases hPacked : op.packedShape
    · rw [if_pos hPacked] at h ⊢
      obtain ⟨plan₁, h₁, h₂⟩ := bind_ok.mp h
      cases h₂
      exact (foldPacked_extends h₁).trans (.finish plan₁ op)
    · rw [if_neg hPacked] at h ⊢
      obtain ⟨⟨plan₁, members₁⟩, h₁, h₂⟩ := bind_ok.mp h
      cases h₂
      exact (foldShape_extends h₁).trans (.finish plan₁ op)

/-! ## Keys and plans of a ledger -/

theorem find?_key_of_mem {plans : List Plan} (hNodup : (plans.map Plan.key).Nodup) {p : Plan}
    (hp : p ∈ plans) : plans.find? (fun q => q.key = p.key) = some p := by
  induction plans with
  | nil => cases hp
  | cons q plans ih =>
    rw [List.map_cons, List.nodup_cons] at hNodup
    rcases List.mem_cons.mp hp with rfl | hp
    · simp
    · have hne : q.key ≠ p.key := by
        intro h
        exact hNodup.1 (h ▸ List.mem_map_of_mem hp)
      rw [List.find?_cons_of_neg (by simpa using hne)]
      exact ih hNodup.2 hp

namespace Ledger

variable {L : Ledger}

/-- The keys of the plans in first-touch order. -/
def keys (L : Ledger) : List Bytes := L.plans.map Plan.key

theorem plan?_of_mem {p : Plan} (hp : p ∈ L.plans) : L.plan? p.key = some p :=
  find?_key_of_mem L.nodup hp

theorem mem_of_plan? {k : Bytes} {p : Plan} (h : L.plan? k = some p) :
    p ∈ L.plans ∧ p.key = k :=
  ⟨List.mem_of_find?_eq_some h, by simpa using List.find?_some h⟩

theorem plan?_isSome {k : Bytes} : (L.plan? k).isSome ↔ k ∈ L.keys := by
  rw [← Option.not_isNone, Bool.not_eq_true', Bool.eq_false_iff, ne_eq, Option.isNone_iff_eq_none,
    plan?_eq_none, not_not]
  rfl

theorem plan?_append {k : Bytes} {ttype : TableType} (h : L.plan? k = none) (j : Bytes) :
    (L.append k ttype h).plan? j = if j = k then some (.fresh k ttype) else L.plan? j := by
  have hFresh : [Plan.fresh k ttype].find? (·.key = j) =
      if j = k then some (.fresh k ttype) else none := by
    by_cases hj : j = k
    · simp [hj, Plan.fresh]
    · simp [hj, Ne.symm hj, Plan.fresh]
  simp only [plan?, append, List.find?_append] at h ⊢
  by_cases hj : j = k
  · subst hj
    rw [h, hFresh, Option.none_or]
  · rw [hFresh, if_neg hj, if_neg hj, Option.or_none]

theorem plan?_setPlan (p : Plan) (j : Bytes) :
    (L.setPlan p).plan? j = if j = p.key then (L.plan? j).map fun _ => p else L.plan? j := by
  simp only [plan?, setPlan]
  induction L.plans with
  | nil => simp
  | cons q plans ih =>
    simp only [List.map_cons, List.find?_cons]
    by_cases hq : q.key = p.key
    · by_cases hj : j = p.key
      · simp [hq, hj]
      · simpa [hq, hj, Ne.symm hj] using ih
    · by_cases hj : j = p.key
      · subst hj
        simpa [hq] using ih
      · by_cases hqj : q.key = j
        · simp [hj, hqj]
        · simpa [hq, hj, hqj] using ih

@[simp] theorem keys_setPlan (p : Plan) : (L.setPlan p).keys = L.keys := by
  simp only [keys, setPlan, List.map_map]
  refine List.map_congr_left fun q _ => ?_
  by_cases h : q.key = p.key <;> simp [h]

@[simp] theorem members_setPlan (p : Plan) : (L.setPlan p).members = L.members := rfl

/-- The plan a key has, or the one its first touch gives it. -/
def entry (L : Ledger) (k : Bytes) (ttype : TableType) : Plan :=
  (L.plan? k).getD (.fresh k ttype)

theorem entry_key (L : Ledger) (k : Bytes) (ttype : TableType) : (L.entry k ttype).key = k := by
  unfold entry
  cases h : L.plan? k with
  | none => rfl
  | some p => exact (mem_of_plan? h).2

/-- The ledger with a plan for the key. -/
def touch (L : Ledger) (k : Bytes) (ttype : TableType) : Ledger := (L.planFor k ttype).2.2

theorem planFor_eq (L : Ledger) (k : Bytes) (ttype : TableType) :
    L.planFor k ttype = (L.entry k ttype, (L.plan? k).isNone, L.touch k ttype) := by
  unfold touch entry planFor
  split <;> simp_all

theorem plan?_touch (L : Ledger) (k : Bytes) (ttype : TableType) (j : Bytes) :
    (L.touch k ttype).plan? j = if j = k then some (L.entry k ttype) else L.plan? j := by
  unfold touch entry planFor
  split
  · rename_i p hp
    by_cases hj : j = k
    · simp [hj, hp]
    · simp [hj]
  · rename_i hp
    rw [plan?_append, hp, Option.getD_none]

theorem keys_touch (L : Ledger) (k : Bytes) (ttype : TableType) :
    (L.touch k ttype).keys = if k ∈ L.keys then L.keys else L.keys ++ [k] := by
  unfold touch planFor
  split
  · rename_i p hp
    have hk : k ∈ L.keys := plan?_isSome.mp (by simp [hp])
    simp [hk]
  · rename_i hp
    have hk : k ∉ L.keys := plan?_eq_none.mp hp
    simp only [hk, if_false]
    simp [keys, append, Plan.fresh]

@[simp] theorem members_touch (L : Ledger) (k : Bytes) (ttype : TableType) :
    (L.touch k ttype).members = L.members := by
  unfold touch planFor
  split <;> rfl

/-! ## One step -/

/-- The plan of a key after the rename of `op` away from it. -/
def sourcePlan (L : Ledger) (op : WriteOp) (oldkey : Bytes) : Plan :=
  ((L.entry oldkey op.tabletype).addRelid op.relid).precondition (L.plan? oldkey).isNone .update
    false

theorem sourcePlan_extends (L : Ledger) (op : WriteOp) (oldkey : Bytes) :
    (L.entry oldkey op.tabletype).Extends (L.sourcePlan op oldkey) [] :=
  (Plan.Extends.addRelid _ _).trans (.precondition _ _ _ _)

theorem foldRename_of_not {op : WriteOp} (h : op.isRename = false) : L.foldRename op = L := by
  unfold foldRename
  split <;> simp [h]

theorem foldRename_of_rename {op : WriteOp} (h : op.isRename = true) {oldkey : Bytes}
    (hOld : op.oldkey = some oldkey) :
    L.foldRename op = (L.touch oldkey op.tabletype).setPlan (L.sourcePlan op oldkey) := by
  simp only [foldRename, hOld, h, if_true, planFor_eq]
  rfl

theorem members_foldRename (L : Ledger) (op : WriteOp) : (L.foldRename op).members = L.members := by
  unfold foldRename
  split
  · rfl
  · split
    · simp only [planFor_eq, members_setPlan, members_touch]
    · rfl

/-- The plan of an operation's key, ready for the write: first-touch precondition
and rename. -/
def startPlan (L : Ledger) (op : WriteOp) : Plan :=
  (((L.entry op.key op.tabletype).addRelid op.relid).precondition (L.plan? op.key).isNone op.kind
    op.isRename).foldRename op

theorem startPlan_extends (L : Ledger) (op : WriteOp) :
    (L.entry op.key op.tabletype).Extends (L.startPlan op) op.renameActions :=
  ((Plan.Extends.addRelid _ _).trans (.precondition _ _ _ _)).trans (.foldRename _ _)

end Ledger

/-- What one accepted operation does to the ledger. -/
structure NoteStep (op : WriteOp) (L L' : Ledger) (plan : Plan) : Prop where
  duplicate : checkDuplicate ((L.entry op.key op.tabletype).addRelid op.relid) op
    (L.plan? op.key).isNone = .ok ()
  write : foldWrite op (L.startPlan op) L.members = .ok (plan, L'.members)
  keys : L'.keys = L.keys ++ op.names.filter (· ∉ L.keys)
  plan_key : L'.plan? op.key = some plan
  plan_old : ∀ {oldkey}, op.isRename = true → op.oldkey = some oldkey →
    L'.plan? oldkey = some (L.sourcePlan op oldkey)
  plan_other : ∀ {j}, j ∉ op.names → L'.plan? j = L.plan? j

theorem keys_two {L : Ledger} {k old : Bytes} {ttype : TableType} (hne : old ≠ k) :
    ((L.touch k ttype).touch old ttype).keys = L.keys ++ [k, old].filter (· ∉ L.keys) := by
  rw [Ledger.keys_touch, Ledger.keys_touch]
  by_cases hk : k ∈ L.keys <;> by_cases ho : old ∈ L.keys <;> simp [hk, ho, hne]

theorem note_spec {L L' : Ledger} (h : note op L = .ok L') :
    ∃ plan, NoteStep op L L' plan := by
  unfold note at h
  rw [Ledger.planFor_eq] at h
  obtain ⟨_, hDup, h⟩ := bind_ok.mp h
  obtain ⟨⟨plan, members⟩, hWrite, h⟩ := bind_ok.mp h
  cases h
  rw [Ledger.members_foldRename, Ledger.members_touch] at hWrite
  have hKey : plan.key = op.key := by
    rw [(foldWrite_extends hWrite).key]
    exact (L.startPlan_extends op).key.trans (L.entry_key _ _)
  by_cases hRen : op.isRename = true
  · obtain ⟨-, old, hOld, hne⟩ := WriteOp.isRename_iff.mp hRen
    have hSource : (L.touch op.key op.tabletype).sourcePlan op old = L.sourcePlan op old := by
      simp only [Ledger.sourcePlan, Ledger.entry, Ledger.plan?_touch, if_neg hne]
    have hSourceKey : (L.sourcePlan op old).key = old :=
      (L.sourcePlan_extends op old).key.trans (L.entry_key _ _)
    have hPlan : ∀ j, ((L.touch op.key op.tabletype).foldRename op).plan? j =
        if j = old then some (L.sourcePlan op old) else (L.touch op.key op.tabletype).plan? j := by
      intro j
      rw [Ledger.foldRename_of_rename hRen hOld, hSource, Ledger.plan?_setPlan, hSourceKey,
        Ledger.plan?_touch]
      by_cases hj : j = old <;> simp [hj]
    have hNames : op.names = [op.key, old] := by simp [WriteOp.names, hRen, hOld]
    refine ⟨plan, hDup, hWrite, ?_, ?_, ?_, ?_⟩
    · refine (Ledger.keys_setPlan plan).trans ?_
      rw [Ledger.foldRename_of_rename hRen hOld, Ledger.keys_setPlan, keys_two hne, hNames]
    · refine (Ledger.plan?_setPlan plan op.key).trans ?_
      rw [hKey, hPlan, if_neg hne.symm, Ledger.plan?_touch]
      simp
    · intro oldkey _ hOldkey
      obtain rfl : old = oldkey := Option.some.inj (hOld.symm.trans hOldkey)
      refine (Ledger.plan?_setPlan plan old).trans ?_
      rw [hKey, if_neg hne, hPlan, if_pos rfl]
    · intro j hj
      rw [hNames, List.mem_cons, List.mem_singleton, not_or] at hj
      refine (Ledger.plan?_setPlan plan j).trans ?_
      rw [hKey, if_neg hj.1, hPlan, if_neg hj.2, Ledger.plan?_touch, if_neg hj.1]
  · rw [Bool.not_eq_true] at hRen
    have hNames : op.names = [op.key] := by simp [WriteOp.names, hRen]
    refine ⟨plan, hDup, hWrite, ?_, ?_, fun h => absurd h (by simp [hRen]), ?_⟩
    · refine (Ledger.keys_setPlan plan).trans ?_
      rw [Ledger.foldRename_of_not hRen, Ledger.keys_touch, hNames]
      by_cases hk : op.key ∈ L.keys <;> simp [hk]
    · refine (Ledger.plan?_setPlan plan op.key).trans ?_
      rw [hKey, Ledger.foldRename_of_not hRen, Ledger.plan?_touch]
      simp
    · intro j hj
      rw [hNames, List.mem_singleton] at hj
      refine (Ledger.plan?_setPlan plan j).trans ?_
      rw [hKey, if_neg hj, Ledger.foldRename_of_not hRen, Ledger.plan?_touch, if_neg hj]

end ValkeyFdw
