import ValkeyFdw.Ledger.Order

/-!
# When an operation is accepted and its checks pass

A fold step can fail in two ways: the fold refuses the operation, or a check it
adds does not hold in the keyspace the program will find. This module says when
neither happens, in terms of the ledger before the step and that keyspace
(`note_passes_iff`): the precondition of a key first touched, the duplicate
rule, and the preconditions of fields, members and list elements. It also says
what a step records about fields, members and elements (`NoteStep.members_eq`).
-/

namespace ValkeyFdw

open Cell

/-! ## Checks as statements about a key -/

section Holds

variable {k x : Bytes} {ks : Keyspace}

theorem query_of_holdsType {T : Type} {C : Collection T} {e : Option Value}
    (h : HoldsType C.type e) : ∃ t, C.read e = some t ∧ query C e = .ok t := by
  obtain ⟨t, ht⟩ := (C.read_iff e).mpr h
  exact ⟨t, ht, by simp [query, ht]⟩

theorem typeOk_holds : Check.typeOk.Holds k ks := rfl

theorem keyAbsent_holds : Check.keyAbsent.Holds k ks ↔ ks k = none := by
  cases h : ks k <;> simp [Check.Holds, Check.eval, h]

theorem keyPresent_holds : Check.keyPresent.Holds k ks ↔ (ks k).isSome := by
  cases h : ks k <;> simp [Check.Holds, Check.eval, h]

theorem hfield_holds (h : HoldsType .hash (ks k)) :
    ((Check.hfieldAbsent x).Holds k ks ↔ ¬holdsSub (ks k) x = true) ∧
      ((Check.hfieldPresent x).Holds k ks ↔ holdsSub (ks k) x = true) := by
  obtain ⟨t, ht, hQuery⟩ := query_of_holdsType (C := hashes) h
  rw [holdsSub_of_hashes ht]
  simp [Check.Holds, Check.eval, hQuery, Except.map]

theorem smember_holds (h : HoldsType .set (ks k)) :
    ((Check.smemberAbsent x).Holds k ks ↔ ¬holdsSub (ks k) x = true) ∧
      ((Check.smemberPresent x).Holds k ks ↔ holdsSub (ks k) x = true) := by
  obtain ⟨t, ht, hQuery⟩ := query_of_holdsType (C := sets) h
  rw [holdsSub_of_sets ht]
  simp [Check.Holds, Check.eval, hQuery, Except.map]

theorem zmember_holds (h : HoldsType .zset (ks k)) :
    ((Check.zmemberAbsent x).Holds k ks ↔ ¬holdsSub (ks k) x = true) ∧
      ((Check.zmemberPresent x).Holds k ks ↔ holdsSub (ks k) x = true) := by
  obtain ⟨t, ht, hQuery⟩ := query_of_holdsType (C := zsets) h
  rw [holdsSub_of_zsets ht]
  simp [Check.Holds, Check.eval, hQuery, Except.map]

theorem lvalueCountGe_holds {n : Nat} (h : HoldsType .list (ks k)) :
    (Check.lvalueCountGe x n).Holds k ks ↔ n ≤ occurrences (ks k) x := by
  obtain ⟨t, ht, hQuery⟩ := query_of_holdsType (C := lists) h
  simp [Check.Holds, Check.eval, hQuery, Except.map, occurrences_of_lists ht]

end Holds

/-- Every check of the plan holds for the key. -/
def ChecksHold (key : Bytes) (ks : Keyspace) (plan : Plan) : Prop :=
  ∀ c ∈ plan.checks, c.Holds key ks

theorem checksHold_congr {key : Bytes} {ks : Keyspace} {p q : Plan} (h : p.checks = q.checks) :
    ChecksHold key ks p ↔ ChecksHold key ks q := by
  rw [ChecksHold, h, ChecksHold]

theorem checksHold_addCheck (key : Bytes) (ks : Keyspace) (plan : Plan) (c : Check) :
    ChecksHold key ks (plan.addCheck c) ↔ ChecksHold key ks plan ∧ c.Holds key ks := by
  simp only [ChecksHold, Plan.addCheck, List.forall_mem_append, List.forall_mem_singleton]

/-! ## Fields and members -/

/-- The first-touch rule for a field or member: one that the ledger has recorded
must not be inserted while present; one it has not must be there or not there
in the keyspace, unless the transaction creates the key. -/
def SubOk (state : KeyState) (entry : Option MemberEntry) (kind : OpKind) (held : Prop) : Prop :=
  match entry with
  | some m => kind = .insert → m.present = false
  | none => state ≠ .created → (kind = .insert ↔ ¬held)

instance (state : KeyState) (entry : Option MemberEntry) (kind : OpKind) (held : Prop)
    [Decidable held] : Decidable (SubOk state entry kind held) :=
  match entry with
  | some m => inferInstanceAs (Decidable (kind = .insert → m.present = false))
  | none => inferInstanceAs (Decidable (state ≠ .created → (kind = .insert ↔ ¬held)))

theorem subPrecondition_spec {plan plan' : Plan} {members : Members} {op : WriteOp} {sub : Bytes}
    {absent present : Check} {dup : Refusal} {m : MemberEntry}
    (h : subPrecondition plan members op sub absent present dup = .ok (plan', m)) :
    plan'.state = plan.state ∧ m = (members op.key sub).getD {} := by
  unfold subPrecondition at h
  split at h
  · rename_i hNone
    split at h
    · cases h
      simp [hNone]
    · cases h
      simp [hNone, Plan.addCheck]
  · rename_i m' hSome
    split at h
    · cases h
    · cases h
      simp [hSome]

theorem subPrecondition_passes (plan : Plan) (members : Members) {op : WriteOp} (sub : Bytes)
    {absent present : Check} (dup : Refusal) {ks : Keyspace} {held : Prop}
    (hChecks : (absent.Holds op.key ks ↔ ¬held) ∧ (present.Holds op.key ks ↔ held)) :
    (∃ r, subPrecondition plan members op sub absent present dup = .ok r ∧
        ChecksHold op.key ks r.1) ↔
      ChecksHold op.key ks plan ∧ SubOk plan.state (members op.key sub) op.kind held := by
  unfold subPrecondition SubOk
  cases members op.key sub with
  | none =>
    by_cases hState : plan.state = .created
    · simp [hState]
    · by_cases hKind : op.kind = .insert
      · simp [hState, hKind, checksHold_addCheck, hChecks.1]
      · simp [hState, hKind, checksHold_addCheck, hChecks.2]
  | some m =>
    by_cases hKind : op.kind = .insert
    · cases hPres : m.present <;> simp [hKind, hPres]
    · simp [hKind]

/-! ## What an operation records -/

namespace WriteOp

variable (op : WriteOp)

/-- Record that a field or member is there, or is not. -/
def mark (members : Members) (sub : Bytes) (present : Bool) : Members :=
  members.enter op.key sub { (members op.key sub).getD {} with present := present }

def recordFields : List WriteArg → Members → Members
  | [], members => members
  | f :: fs, members => recordFields fs (op.mark members f.name f.data.isSome)

def recordMember (members : Members) : Members :=
  match op.member with
  | none => members
  | some member =>
    let idm := op.oldmember.getD member
    if op.kind = .delete then op.mark members idm false
    else if op.kind = .update ∧ idm ≠ member then op.mark (op.mark members idm false) member true
    else op.mark members idm true

def recordElement (members : Members) : Members :=
  match op.member with
  | none => members
  | some member =>
    let m := (members op.key member).getD {}
    members.enter op.key member
      (if op.kind = .delete then
        if 0 < m.count then { m with count := m.count - 1 }
        else { m with presentRemovals := m.presentRemovals + 1 }
      else { m with count := m.count + 1 })

/-- The record of fields, members and elements after the operation. -/
def record (members : Members) : Members :=
  if op.deletesKey ∨ op.packedShape then members
  else
    match op.tabletype with
    | .string | .vector => members
    | .hash => op.recordFields op.fields members
    | .set | .zset => op.recordMember members
    | .list => op.recordElement members

end WriteOp

/-! ## The shapes -/

section Shapes

variable {op : WriteOp} {plan plan' : Plan} {members members' : Members} {ks : Keyspace}

/-- Each field of the operation obeys the first-touch rule, given the ones before it. -/
def FieldsOk (ks : Keyspace) (op : WriteOp) (state : KeyState) : List WriteArg → Members → Prop
  | [], _ => True
  | f :: fs, members =>
    SubOk state (members op.key f.name) op.kind (holdsSub (ks op.key) f.name = true) ∧
      FieldsOk ks op state fs (op.mark members f.name f.data.isSome)

instance FieldsOk.decidable (ks : Keyspace) (op : WriteOp) (state : KeyState) :
    ∀ fs members, Decidable (FieldsOk ks op state fs members)
  | [], _ => isTrue trivial
  | f :: fs, members =>
    haveI := FieldsOk.decidable ks op state fs (op.mark members f.name f.data.isSome)
    inferInstanceAs (Decidable (SubOk state (members op.key f.name) op.kind
      (holdsSub (ks op.key) f.name = true) ∧
        FieldsOk ks op state fs (op.mark members f.name f.data.isSome)))

/-- The member of the operation obeys the first-touch rule. -/
def MemberOk (ks : Keyspace) (op : WriteOp) (state : KeyState) (members : Members) : Prop :=
  ∀ member ∈ op.member, SubOk state (members op.key (op.oldmember.getD member)) op.kind
    (holdsSub (ks op.key) (op.oldmember.getD member) = true)

instance (ks : Keyspace) (op : WriteOp) (state : KeyState) (members : Members) :
    Decidable (MemberOk ks op state members) :=
  inferInstanceAs (Decidable (∀ member ∈ op.member,
    SubOk state (members op.key (op.oldmember.getD member)) op.kind
      (holdsSub (ks op.key) (op.oldmember.getD member) = true)))

/-- A DELETE of an element takes one the transaction pushed, or one the list has left. -/
def ElementOk (ks : Keyspace) (op : WriteOp) (members : Members) : Prop :=
  ∀ member ∈ op.member, op.kind = .delete →
    0 < ((members op.key member).getD {}).count ∨
      ((members op.key member).getD {}).presentRemovals < occurrences (ks op.key) member

theorem foldField_spec {f : WriteArg} (h : foldField op f plan members = .ok (plan', members')) :
    plan'.state = plan.state ∧ members' = op.mark members f.name f.data.isSome := by
  obtain ⟨⟨plan₁, m⟩, h₁, h₂⟩ := bind_ok.mp h
  obtain ⟨hState, rfl⟩ := subPrecondition_spec h₁
  dsimp only at h₂
  cases hData : f.data with
  | none =>
    rw [hData] at h₂
    cases h₂
    exact ⟨hState, rfl⟩
  | some v =>
    rw [hData] at h₂
    cases h₂
    exact ⟨hState, rfl⟩

theorem foldField_passes (hType : HoldsType .hash (ks op.key)) {f : WriteArg} :
    (∃ r, foldField op f plan members = .ok r ∧ ChecksHold op.key ks r.1) ↔
      ChecksHold op.key ks plan ∧
        SubOk plan.state (members op.key f.name) op.kind (holdsSub (ks op.key) f.name = true) := by
  rw [← subPrecondition_passes plan members f.name (.duplicateField op.key f.name)
    (hfield_holds hType)]
  simp only [foldField, bind_ok]
  constructor
  · rintro ⟨r, ⟨a, ha, hr⟩, hChecks⟩
    refine ⟨a, ha, ?_⟩
    cases hData : f.data with
    | none => rw [hData] at hr; cases hr; exact hChecks
    | some v => rw [hData] at hr; cases hr; exact hChecks
  · rintro ⟨a, ha, hChecks⟩
    cases hData : f.data with
    | none => exact ⟨_, ⟨a, ha, rfl⟩, hChecks⟩
    | some v => exact ⟨_, ⟨a, ha, rfl⟩, hChecks⟩

theorem foldFields_spec {fs : List WriteArg}
    (h : foldFields op fs plan members = .ok (plan', members')) :
    plan'.state = plan.state ∧ members' = op.recordFields fs members := by
  induction fs generalizing plan members with
  | nil =>
    cases h
    exact ⟨rfl, rfl⟩
  | cons f fs ih =>
    obtain ⟨⟨plan₁, members₁⟩, h₁, h₂⟩ := bind_ok.mp h
    obtain ⟨hState, rfl⟩ := foldField_spec h₁
    obtain ⟨hState', rfl⟩ := ih h₂
    exact ⟨hState'.trans hState, rfl⟩

theorem foldFields_passes (hType : HoldsType .hash (ks op.key)) {fs : List WriteArg} :
    (∃ r, foldFields op fs plan members = .ok r ∧ ChecksHold op.key ks r.1) ↔
      ChecksHold op.key ks plan ∧ FieldsOk ks op plan.state fs members := by
  induction fs generalizing plan members with
  | nil => simp [foldFields, FieldsOk]
  | cons f fs ih =>
    simp only [foldFields, FieldsOk, bind_ok]
    rw [← and_assoc, ← foldField_passes hType]
    constructor
    · rintro ⟨r, ⟨⟨plan₁, members₁⟩, h₁, h₂⟩, hChecks⟩
      obtain ⟨hState, rfl⟩ := foldField_spec h₁
      obtain ⟨hHead, hTail⟩ := ih.mp ⟨r, h₂, hChecks⟩
      exact ⟨⟨_, h₁, hHead⟩, hState ▸ hTail⟩
    · rintro ⟨⟨⟨plan₁, members₁⟩, h₁, hHead⟩, hTail⟩
      obtain ⟨hState, rfl⟩ := foldField_spec h₁
      obtain ⟨r, h₂, hChecks⟩ := ih.mpr ⟨hHead, hState ▸ hTail⟩
      exact ⟨r, ⟨_, h₁, h₂⟩, hChecks⟩

theorem foldTtls_spec (op : WriteOp) (plan : Plan) :
    (foldTtls op plan).state = plan.state ∧ (foldTtls op plan).checks = plan.checks := by
  unfold foldTtls
  induction op.ttls generalizing plan with
  | nil => exact ⟨rfl, rfl⟩
  | cons t ts ih => exact ih (plan.addAction (ttlAction t))

theorem foldHash_spec (h : foldHash op plan members = .ok (plan', members')) :
    plan'.state = plan.state ∧ members' = op.recordFields op.fields members := by
  obtain ⟨⟨plan₁, members₁⟩, h₁, h₂⟩ := bind_ok.mp h
  obtain ⟨hState, rfl⟩ := foldFields_spec h₁
  cases h₂
  exact ⟨(foldTtls_spec op plan₁).1.trans hState, rfl⟩

theorem foldHash_passes (hType : HoldsType .hash (ks op.key)) :
    (∃ r, foldHash op plan members = .ok r ∧ ChecksHold op.key ks r.1) ↔
      ChecksHold op.key ks plan ∧ FieldsOk ks op plan.state op.fields members := by
  have hTtls : ∀ p, ChecksHold op.key ks (foldTtls op p) ↔ ChecksHold op.key ks p :=
    fun p => checksHold_congr (foldTtls_spec op p).2
  rw [← foldFields_passes hType]
  simp only [foldHash, bind_ok]
  constructor
  · rintro ⟨_, ⟨a, ha, hr⟩, hChecks⟩
    cases hr
    exact ⟨a, ha, (hTtls a.1).mp hChecks⟩
  · rintro ⟨a, ha, hChecks⟩
    exact ⟨_, ⟨a, ha, rfl⟩, (hTtls a.1).mpr hChecks⟩

theorem member_holds (isZset : Bool) (x : Bytes)
    (hType : HoldsType (if isZset then .zset else .set) (ks op.key)) :
    ((if isZset then Check.zmemberAbsent x else .smemberAbsent x).Holds op.key ks ↔
        ¬holdsSub (ks op.key) x = true) ∧
      ((if isZset then Check.zmemberPresent x else .smemberPresent x).Holds op.key ks ↔
        holdsSub (ks op.key) x = true) := by
  cases isZset with
  | true => exact zmember_holds hType
  | false => exact smember_holds hType

/-- The fold of a member is its precondition, its actions and its record. -/
theorem foldMember_eq {member : Bytes} (hMember : op.member = some member) :
    foldMember op plan members = (do
      let (q, _) ← memberPrecondition plan members op (plan.ttype = .zset)
        (op.oldmember.getD member)
      return ({ q with actions := q.actions ++ op.memberActions (plan.ttype = .zset) },
        op.recordMember members)) := by
  unfold foldMember
  rw [hMember]
  dsimp only
  cases hPre : memberPrecondition plan members op (plan.ttype = .zset) (op.oldmember.getD member) with
  | error e => rfl
  | ok r =>
    obtain ⟨plan₁, m⟩ := r
    have hm : m = (members op.key (op.oldmember.getD member)).getD {} :=
      (subPrecondition_spec hPre).2
    subst hm
    simp only [bind, Except.bind, WriteOp.memberActions, WriteOp.recordMember, hMember,
      WriteOp.mark]
    by_cases hDel : op.kind = .delete
    · simp [hDel, Plan.addAction]
    · by_cases hMove : op.kind = .update ∧ op.oldmember.getD member ≠ member
      · simp [hMove, Plan.addAction]
      · simp [hDel, hMove, Plan.addAction]

theorem foldMember_spec (h : foldMember op plan members = .ok (plan', members')) :
    plan'.state = plan.state ∧ members' = op.recordMember members := by
  cases hMember : op.member with
  | none =>
    simp only [foldMember, hMember] at h
    cases h
    simp [WriteOp.recordMember, hMember]
  | some member =>
    rw [foldMember_eq hMember] at h
    obtain ⟨⟨plan₁, m⟩, h₁, h₂⟩ := bind_ok.mp h
    cases h₂
    exact ⟨(subPrecondition_spec h₁).1, rfl⟩

theorem foldMember_passes
    (hType : HoldsType (if plan.ttype = .zset then .zset else .set) (ks op.key)) :
    (∃ r, foldMember op plan members = .ok r ∧ ChecksHold op.key ks r.1) ↔
      ChecksHold op.key ks plan ∧ MemberOk ks op plan.state members := by
  cases hMember : op.member with
  | none => simp [foldMember, MemberOk, hMember]
  | some member =>
    have hChecks := member_holds (plan.ttype = .zset) (op.oldmember.getD member)
      (by simpa using hType)
    have hPre := subPrecondition_passes plan members (op.oldmember.getD member)
      (.duplicateMember op.key (op.oldmember.getD member)) hChecks
    simp only [MemberOk, hMember, Option.mem_some_iff, forall_eq']
    rw [← hPre, foldMember_eq hMember]
    simp only [bind_ok]
    constructor
    · rintro ⟨_, ⟨a, ha, hr⟩, hHold⟩
      cases hr
      exact ⟨a, ha, hHold⟩
    · rintro ⟨a, ha, hHold⟩
      exact ⟨_, ⟨a, ha, rfl⟩, hHold⟩

theorem foldList_spec (op : WriteOp) (plan : Plan) (members : Members) :
    (foldList op plan members).1.state = plan.state ∧
      (foldList op plan members).2 = op.recordElement members := by
  unfold foldList WriteOp.recordElement
  cases op.member with
  | none => exact ⟨rfl, rfl⟩
  | some member =>
    dsimp only
    by_cases hDel : op.kind = .delete
    · rw [if_pos hDel, if_pos hDel]
      split <;> exact ⟨rfl, rfl⟩
    · rw [if_neg hDel, if_neg hDel]
      exact ⟨rfl, rfl⟩

theorem foldList_passes (plan : Plan) (members : Members)
    (hType : HoldsType .list (ks op.key)) :
    ChecksHold op.key ks (foldList op plan members).1 ↔
      ChecksHold op.key ks plan ∧ ElementOk ks op members := by
  unfold foldList ElementOk
  cases op.member with
  | none => simp
  | some member =>
    simp only [Option.mem_some_iff, forall_eq']
    by_cases hDel : op.kind = .delete
    · by_cases hCount : 0 < ((members op.key member).getD {}).count
      · simp [hDel, hCount, ChecksHold, Plan.addAction]
      · have hStep := checksHold_addCheck op.key ks plan
          (.lvalueCountGe member (((members op.key member).getD {}).presentRemovals + 1))
        rw [lvalueCountGe_holds hType, Nat.succ_le_iff] at hStep
        simpa [hDel, hCount, ChecksHold, Plan.addAction] using hStep
    · simp [hDel, ChecksHold, Plan.addAction]

theorem foldPacked_spec (h : foldPacked op plan = .ok plan') :
    plan'.state = plan.state ∧ plan'.checks = plan.checks := by
  obtain ⟨as, -, h₂⟩ := bind_ok.mp h
  cases h₂
  exact ⟨rfl, rfl⟩

end Shapes

/-! ## The write -/

/-- The state of a key after an operation that found it in the given one. -/
def WriteOp.nextState (op : WriteOp) (state : KeyState) : KeyState :=
  if op.deletesKey then .deleted else if state = .deleted then .live else state

/-- The write path offers the operation: no table of its type and shape is read-only. -/
structure WriteOp.Supported (op : WriteOp) : Prop where
  notVector : op.tabletype ≠ .vector
  packed : op.packedShape = true →
    op.tabletype = .hash ∨ op.tabletype = .set ∨ op.tabletype = .list

/-- The fields, the member or the element of the operation obey their rules. -/
def WriteOk (ks : Keyspace) (op : WriteOp) (state : KeyState) (members : Members) : Prop :=
  op.deletesKey = false → op.packedShape = false →
    match op.tabletype with
    | .string | .vector => True
    | .hash => FieldsOk ks op state op.fields members
    | .set | .zset => MemberOk ks op state members
    | .list => ElementOk ks op members

section Write

variable {op : WriteOp} {plan plan' : Plan} {members members' : Members} {ks : Keyspace}

theorem Plan.keyset_checks (plan : Plan) (op : WriteOp) (key : Bytes) (add : Bool) :
    (plan.keyset op key add).checks = plan.checks := by
  unfold Plan.keyset
  split <;> rfl

theorem Plan.keyset_state (plan : Plan) (op : WriteOp) (key : Bytes) (add : Bool) :
    (plan.keyset op key add).state = plan.state := by
  unfold Plan.keyset
  split <;> rfl

theorem Plan.finish_checks (plan : Plan) (op : WriteOp) :
    (plan.finish op).checks = plan.checks := by
  unfold Plan.finish
  by_cases hIns : op.kind = .insert
  · simp only [hIns, if_true]
    split <;> exact plan.keyset_checks op _ _
  · simp only [hIns, if_false]
    split <;> rfl

theorem Plan.finish_state (plan : Plan) (op : WriteOp) :
    (plan.finish op).state = if plan.state = .deleted then .live else plan.state := by
  unfold Plan.finish
  by_cases hIns : op.kind = .insert
  · simp only [hIns, if_true, Plan.keyset_state]
    split <;> simp [Plan.keyset_state]
  · simp only [hIns, if_false]
    split <;> rfl

theorem foldShape_spec (hPlain : op.deletesKey = false) (hPacked : op.packedShape = false)
    (h : foldShape op plan members = .ok (plan', members')) :
    plan'.state = plan.state ∧ members' = op.record members := by
  unfold foldShape at h
  unfold WriteOp.record
  simp only [hPlain, hPacked, Bool.false_eq_true, or_self, if_false]
  cases hType : op.tabletype with
  | string =>
    rw [hType] at h
    cases hValue : op.value with
    | none =>
      rw [hValue] at h
      cases h
      exact ⟨rfl, rfl⟩
    | some v =>
      rw [hValue] at h
      cases h
      exact ⟨rfl, rfl⟩
  | hash =>
    rw [hType] at h
    exact foldHash_spec h
  | set =>
    rw [hType] at h
    exact foldMember_spec h
  | zset =>
    rw [hType] at h
    exact foldMember_spec h
  | list =>
    rw [hType] at h
    have hList := foldList_spec op plan members
    rw [Except.ok.inj h] at hList
    exact hList
  | vector =>
    rw [hType] at h
    cases h

theorem foldWrite_spec (h : foldWrite op plan members = .ok (plan', members')) :
    plan'.state = op.nextState plan.state ∧ members' = op.record members := by
  unfold foldWrite at h
  unfold WriteOp.nextState
  by_cases hDel : op.deletesKey = true
  · rw [if_pos hDel] at h
    cases h
    simp [hDel, WriteOp.record]
  · rw [if_neg hDel] at h
    by_cases hPacked : op.packedShape = true
    · rw [if_pos hPacked] at h
      obtain ⟨plan₁, h₁, h₂⟩ := bind_ok.mp h
      cases h₂
      simp [hDel, hPacked, WriteOp.record, Plan.finish_state, (foldPacked_spec h₁).1]
    · rw [if_neg hPacked] at h
      obtain ⟨⟨plan₁, members₁⟩, h₁, h₂⟩ := bind_ok.mp h
      cases h₂
      obtain ⟨hState, hRecord⟩ := foldShape_spec (by simpa using hDel) (by simpa using hPacked) h₁
      rw [if_neg hDel, Plan.finish_state, hState]
      exact ⟨rfl, hRecord⟩

theorem foldShape_passes (hOp : op.Supported) (hPlain : op.deletesKey = false)
    (hPacked : op.packedShape = false) (hPlan : plan.ttype = op.tabletype)
    (hType : HoldsType op.tabletype.valueType (ks op.key)) :
    (∃ r, foldShape op plan members = .ok r ∧ ChecksHold op.key ks r.1) ↔
      ChecksHold op.key ks plan ∧ WriteOk ks op plan.state members := by
  unfold foldShape WriteOk
  simp only [hPlain, hPacked, forall_const]
  cases hTab : op.tabletype with
  | string =>
    cases op.value <;> simp [ChecksHold, Plan.addAction]
  | hash =>
    rw [hTab] at hType
    exact foldHash_passes hType
  | set =>
    rw [hTab] at hType hPlan
    exact foldMember_passes (by rw [hPlan]; exact hType)
  | zset =>
    rw [hTab] at hType hPlan
    exact foldMember_passes (by rw [hPlan]; exact hType)
  | list =>
    rw [hTab] at hType
    simpa using foldList_passes plan members hType
  | vector => exact absurd hTab hOp.notVector

theorem packedElements_total (hOp : op.Supported) (hPacked : op.packedShape = true) :
    ∃ as, packedElements op = .ok as := by
  unfold packedElements
  rcases hOp.packed hPacked with h | h | h <;> rw [h] <;> exact ⟨_, rfl⟩

theorem foldWrite_passes (plan : Plan) (members : Members) (hOp : op.Supported)
    (hPlan : plan.ttype = op.tabletype)
    (hType : HoldsType op.tabletype.valueType (ks op.key)) :
    (∃ r, foldWrite op plan members = .ok r ∧ ChecksHold op.key ks r.1) ↔
      ChecksHold op.key ks plan ∧ WriteOk ks op plan.state members := by
  unfold foldWrite
  by_cases hDel : op.deletesKey = true
  · have hOk : WriteOk ks op plan.state members := by
      intro h
      simp [hDel] at h
    have hSame : ((plan.addAction .del).keyset op op.key false).checks = plan.checks :=
      Plan.keyset_checks _ op _ _
    rw [if_pos hDel]
    constructor
    · rintro ⟨_, hr, hChecks⟩
      cases hr
      exact ⟨(checksHold_congr hSame).mp hChecks, hOk⟩
    · rintro ⟨hChecks, -⟩
      exact ⟨_, rfl, (checksHold_congr hSame).mpr hChecks⟩
  · rw [if_neg hDel]
    by_cases hPacked : op.packedShape = true
    · have hOk : WriteOk ks op plan.state members := by
        intro _ h
        simp [hPacked] at h
      obtain ⟨as, has⟩ := packedElements_total hOp hPacked
      simp [hPacked, hOk, foldPacked, has, bind, Except.bind, pure, Except.pure, ChecksHold,
        Plan.finish_checks]
    · rw [if_neg hPacked, ← foldShape_passes hOp (by simpa using hDel) (by simpa using hPacked)
        hPlan hType]
      simp only [bind_ok]
      constructor
      · rintro ⟨_, ⟨a, ha, hr⟩, hChecks⟩
        cases hr
        exact ⟨a, ha, (checksHold_congr (a.1.finish_checks op)).mp hChecks⟩
      · rintro ⟨a, ha, hChecks⟩
        exact ⟨_, ⟨a, ha, rfl⟩, (checksHold_congr (a.1.finish_checks op)).mpr hChecks⟩

end Write

/-! ## One step -/

section Start

variable {op : WriteOp} {L L' : Ledger} {plan : Plan} {ks : Keyspace}

theorem Plan.addRelid_same (plan : Plan) (relid : Nat) :
    (plan.addRelid relid).checks = plan.checks ∧ (plan.addRelid relid).state = plan.state := by
  unfold Plan.addRelid
  split <;> exact ⟨rfl, rfl⟩

theorem Plan.foldRename_same (plan : Plan) (op : WriteOp) :
    (plan.foldRename op).checks = plan.checks ∧ (plan.foldRename op).state = plan.state := by
  unfold Plan.foldRename
  split
  · exact ⟨rfl, rfl⟩
  · split
    · simp [Plan.keyset_checks, Plan.keyset_state, Plan.addAction]
    · exact ⟨rfl, rfl⟩

/-- What a first touch asks of a key: absence of a key the transaction creates,
presence of any other. -/
def FirstTouch (ks : Keyspace) (k : Bytes) (creates : Prop) : Prop :=
  (creates → ks k = none) ∧ (¬creates → (ks k).isSome)

theorem checksHold_precondition {key : Bytes} {first : Bool} {kind : OpKind} {target : Bool} :
    ChecksHold key ks (plan.precondition first kind target) ↔
      ChecksHold key ks plan ∧
        (first = true → FirstTouch ks key (kind = .insert ∨ target = true)) := by
  unfold Plan.precondition FirstTouch
  cases first with
  | false => simp
  | true =>
    by_cases hCreates : kind = .insert ∨ target = true
    · have hStep := checksHold_addCheck key ks plan .keyAbsent
      rw [keyAbsent_holds] at hStep
      simpa [hCreates, ChecksHold] using hStep
    · have hStep := checksHold_addCheck key ks plan .keyPresent
      rw [keyPresent_holds] at hStep
      simpa [hCreates, ChecksHold] using hStep

namespace Ledger

theorem startPlan_checks : ChecksHold op.key ks (L.startPlan op) ↔
    ChecksHold op.key ks (L.entry op.key op.tabletype) ∧
      (L.plan? op.key = none → FirstTouch ks op.key (op.kind = .insert ∨ op.isRename = true)) := by
  unfold startPlan
  rw [checksHold_congr (Plan.foldRename_same _ op).1, checksHold_precondition,
    checksHold_congr (Plan.addRelid_same _ _).1, Option.isNone_iff_eq_none]

theorem sourcePlan_checks {old : Bytes} : ChecksHold old ks (L.sourcePlan op old) ↔
    ChecksHold old ks (L.entry old op.tabletype) ∧ (L.plan? old = none → (ks old).isSome) := by
  unfold sourcePlan
  rw [checksHold_precondition, checksHold_congr (Plan.addRelid_same _ _).1,
    Option.isNone_iff_eq_none]
  simp [FirstTouch]

/-- The state an operation finds its key in, its own first touch included. -/
theorem startPlan_state : (L.startPlan op).state =
    match L.plan? op.key with
    | some p => p.state
    | none => if op.kind = .insert ∨ op.isRename = true then .created else .live := by
  unfold startPlan
  rw [(Plan.foldRename_same _ op).2]
  cases hPlan : L.plan? op.key with
  | some p => simp [Plan.precondition, Plan.addRelid_same, entry, hPlan]
  | none =>
    unfold Plan.precondition
    by_cases hCreates : op.kind = .insert ∨ op.isRename = true
    · simp [hCreates]
    · simp [hCreates]

theorem sourcePlan_state {old : Bytes} : (L.sourcePlan op old).state =
    ((L.plan? old).map Plan.state).getD .live := by
  unfold sourcePlan
  cases hPlan : L.plan? old with
  | some p => simp [Plan.precondition, Plan.addRelid_same, entry, hPlan]
  | none => simp [Plan.precondition]

/-- Every plan's key has the plan's type and every check holds. -/
def Passes (ks : Keyspace) (L : Ledger) : Prop :=
  ∀ k p, L.plan? k = some p → HoldsType p.ttype.valueType (ks k) ∧ ChecksHold k ks p

theorem passes_iff : L.Passes ks ↔ ∀ p ∈ L.plans, p.Passes ks := by
  constructor
  · intro h p hp
    obtain ⟨hType, hChecks⟩ := h p.key p (plan?_of_mem hp)
    exact ⟨hType, hChecks⟩
  · intro h k p hp
    obtain ⟨hMem, rfl⟩ := mem_of_plan? hp
    exact ⟨(h p hMem).type, (h p hMem).checks⟩

theorem passes_empty (ks : Keyspace) : Ledger.empty.Passes ks := by
  intro k p hp
  simp [plan?, empty] at hp

end Ledger

theorem NoteStep.members_eq (h : NoteStep op L L' plan) : L'.members = op.record L.members :=
  (foldWrite_spec h.write).2

theorem NoteStep.state_eq (h : NoteStep op L L' plan) :
    plan.state = op.nextState (L.startPlan op).state :=
  (foldWrite_spec h.write).1

theorem note_total {r : Plan × Members}
    (hDup : checkDuplicate ((L.entry op.key op.tabletype).addRelid op.relid) op
      (L.plan? op.key).isNone = .ok ())
    (hWrite : foldWrite op (L.startPlan op) L.members = .ok r) :
    ∃ L', note op L = .ok L' ∧ NoteStep op L L' r.1 := by
  have hNote : ∃ L', note op L = .ok L' := by
    unfold note
    rw [Ledger.planFor_eq]
    dsimp only
    rw [Ledger.members_foldRename, Ledger.members_touch]
    rw [hDup]
    exact ⟨_, bind_ok.mpr ⟨(), rfl, bind_ok.mpr ⟨r, hWrite, rfl⟩⟩⟩
  obtain ⟨L', hL'⟩ := hNote
  obtain ⟨plan, hStep⟩ := note_spec hL'
  have hSame := hStep.write
  rw [hWrite] at hSame
  cases hSame
  exact ⟨L', hL', hStep⟩

theorem checkDuplicate_ok :
    checkDuplicate ((L.entry op.key op.tabletype).addRelid op.relid) op
        (L.plan? op.key).isNone = .ok () ↔
      (op.kind = .insert → ∀ p, L.plan? op.key = some p → p.ttype = .string →
        p.state = .deleted) := by
  have hType := (Plan.Extends.addRelid (L.entry op.key op.tabletype) op.relid).ttype
  have hState := (Plan.addRelid_same (L.entry op.key op.tabletype) op.relid).2
  unfold checkDuplicate
  rw [hType, hState]
  unfold Ledger.entry
  cases L.plan? op.key with
  | none => simp
  | some p =>
    by_cases hIns : op.kind = .insert
    · by_cases hString : p.ttype = .string
      · by_cases hDel : p.state = .deleted <;> simp [hIns, hString, hDel]
      · simp [hString]
    · simp [hIns]

/-- The conditions under which the fold accepts an operation and the checks it
adds hold. -/
structure NoteOk (ks : Keyspace) (L : Ledger) (op : WriteOp) : Prop where
  target : L.plan? op.key = none →
    FirstTouch ks op.key (op.kind = .insert ∨ op.isRename = true)
  source : ∀ old, op.isRename = true → op.oldkey = some old → L.plan? old = none →
    (ks old).isSome
  duplicate : op.kind = .insert → ∀ p, L.plan? op.key = some p → p.ttype = .string →
    p.state = .deleted
  write : WriteOk ks op (L.startPlan op).state L.members

theorem entry_passes {k : Bytes} {t : TableType} (hPass : L.Passes ks)
    (hType : HoldsType t.valueType (ks k)) :
    HoldsType (L.entry k t).ttype.valueType (ks k) ∧ ChecksHold k ks (L.entry k t) := by
  unfold Ledger.entry
  cases hPlan : L.plan? k with
  | none =>
    refine ⟨hType, fun c hc => ?_⟩
    rw [List.mem_singleton.mp hc]
    exact typeOk_holds
  | some p => exact hPass k p hPlan

theorem WriteOp.mem_names {n : Bytes} (h : n ∈ op.names) :
    n = op.key ∨ op.isRename = true ∧ op.oldkey = some n := by
  rcases List.mem_cons.mp h with h | h
  · exact .inl h
  · by_cases hRen : op.isRename = true
    · exact .inr ⟨hRen, by simpa [hRen] using h⟩
    · simp [hRen] at h

/-- The fold accepts an operation and the plans still pass exactly when they
passed before and the operation obeys its rules. -/
theorem note_passes_iff (ks : Keyspace) (L : Ledger) (hOp : op.Supported)
    (hTable : (L.entry op.key op.tabletype).ttype = op.tabletype)
    (hType : ∀ n ∈ op.names, HoldsType op.tabletype.valueType (ks n)) :
    (∃ L', note op L = .ok L' ∧ L'.Passes ks) ↔ L.Passes ks ∧ NoteOk ks L op := by
  have hOwnType := hType op.key List.mem_cons_self
  have hWriteIff := foldWrite_passes (L.startPlan op) L.members hOp
    ((L.startPlan_extends op).ttype.trans hTable) hOwnType
  rw [Ledger.startPlan_checks] at hWriteIff
  constructor
  · rintro ⟨L', hNote, hPass⟩
    obtain ⟨plan, hStep⟩ := note_spec hNote
    obtain ⟨hPlanType, hPlanChecks⟩ := hPass _ _ hStep.plan_key
    obtain ⟨⟨hEntry, hTarget⟩, hWrite⟩ := hWriteIff.mp ⟨_, hStep.write, hPlanChecks⟩
    have hOld : ∀ old, op.isRename = true → op.oldkey = some old →
        HoldsType (L.entry old op.tabletype).ttype.valueType (ks old) ∧
          ChecksHold old ks (L.entry old op.tabletype) ∧
          (L.plan? old = none → (ks old).isSome) := by
      intro old hRen hOld
      obtain ⟨hOldType, hOldChecks⟩ := hPass _ _ (hStep.plan_old hRen hOld)
      rw [(L.sourcePlan_extends op old).ttype] at hOldType
      exact ⟨hOldType, Ledger.sourcePlan_checks.mp hOldChecks⟩
    refine ⟨fun k p hp => ?_, hTarget, fun old hRen h => (hOld old hRen h).2.2,
      checkDuplicate_ok.mp hStep.duplicate, hWrite⟩
    by_cases hNames : k ∈ op.names
    · have hEntryEq : L.entry k op.tabletype = p := by simp [Ledger.entry, hp]
      rcases WriteOp.mem_names hNames with rfl | ⟨hRen, hOldkey⟩
      · rw [hStep.plan_extends.ttype] at hPlanType
        exact hEntryEq ▸ ⟨hPlanType, hEntry⟩
      · obtain ⟨hOldType, hOldChecks, -⟩ := hOld k hRen hOldkey
        exact hEntryEq ▸ ⟨hOldType, hOldChecks⟩
    · exact hPass k p (by rw [hStep.plan_other hNames, hp])
  · rintro ⟨hPass, hOk⟩
    obtain ⟨r, hr, hChecks⟩ :=
      hWriteIff.mpr ⟨⟨(entry_passes hPass hOwnType).2, hOk.target⟩, hOk.write⟩
    obtain ⟨L', hNote, hStep⟩ := note_total (checkDuplicate_ok.mpr hOk.duplicate) hr
    refine ⟨L', hNote, fun k p hp => ?_⟩
    by_cases hNames : k ∈ op.names
    · rcases WriteOp.mem_names hNames with rfl | ⟨hRen, hOldkey⟩
      · rw [hStep.plan_key] at hp
        cases hp
        rw [hStep.plan_extends.ttype]
        exact ⟨(entry_passes hPass hOwnType).1, hChecks⟩
      · rw [hStep.plan_old hRen hOldkey] at hp
        cases hp
        obtain ⟨hOldType, hOldChecks⟩ := entry_passes hPass (hType k hNames)
        rw [(L.sourcePlan_extends op k).ttype]
        exact ⟨hOldType, Ledger.sourcePlan_checks.mpr ⟨hOldChecks, hOk.source k hRen hOldkey⟩⟩
    · rw [hStep.plan_other hNames] at hp
      exact hPass k p hp

end Start

/-! ## Ledgers that pass -/

section Passing

variable {op : WriteOp} {ops : List WriteOp} {L L' : Ledger} {plan : Plan} {ks : Keyspace}
  {k : Bytes}

theorem NoteStep.plan_mono (h : NoteStep op L L' plan) {p : Plan} (hp : L.plan? k = some p) :
    ∃ p', L'.plan? k = some p' ∧ p'.ttype = p.ttype ∧ p.checks ⊆ p'.checks := by
  by_cases hNames : k ∈ op.names
  · have hEntry : L.entry k op.tabletype = p := by simp [Ledger.entry, hp]
    rcases WriteOp.mem_names hNames with rfl | ⟨hRen, hOld⟩
    · have hExt := h.plan_extends
      rw [hEntry] at hExt
      exact ⟨plan, h.plan_key, hExt.ttype, hExt.checks⟩
    · have hExt := L.sourcePlan_extends op k
      rw [hEntry] at hExt
      exact ⟨_, h.plan_old hRen hOld, hExt.ttype, hExt.checks⟩
  · exact ⟨p, by rw [h.plan_other hNames, hp], rfl, List.Subset.refl _⟩

theorem NoteStep.passes_before (h : NoteStep op L L' plan) (hPass : L'.Passes ks) :
    L.Passes ks := by
  intro k p hp
  obtain ⟨p', hp', hType, hChecks⟩ := h.plan_mono hp
  obtain ⟨hHolds, hAll⟩ := hPass k p' hp'
  exact ⟨hType ▸ hHolds, fun c hc => hAll c (hChecks hc)⟩

theorem foldOps_passes_before (h : foldOps ops L = .ok L') (hPass : L'.Passes ks) :
    L.Passes ks := by
  induction ops generalizing L with
  | nil =>
    cases h
    exact hPass
  | cons op ops ih =>
    obtain ⟨L₁, hNote, hRest⟩ := foldOps_cons.mp h
    obtain ⟨plan, hStep⟩ := note_spec hNote
    exact hStep.passes_before (ih hRest)

theorem NoteStep.first_touch (h : NoteStep op L L' plan) (hPass : L'.Passes ks)
    (hNone : L.plan? op.key = none) :
    FirstTouch ks op.key (op.kind = .insert ∨ op.isRename = true) := by
  have hChecks := (hPass _ _ h.plan_key).2
  have hStart : ChecksHold op.key ks (L.startPlan op) := fun c hc =>
    hChecks c ((foldWrite_extends h.write).checks hc)
  exact (Ledger.startPlan_checks.mp hStart).2 hNone

/-- What the first operation to name its key found there. -/
theorem firstTouch_of_split (hFold : foldOps ops .empty = .ok L) (hPass : L.Passes ks)
    {pre post : List WriteOp} (hSplit : ops = pre ++ op :: post)
    (hFresh : ∀ o ∈ pre, op.key ∉ o.names) :
    FirstTouch ks op.key (op.kind = .insert ∨ op.isRename = true) := by
  rw [hSplit, foldOps, Trace.run_append_ok] at hFold
  obtain ⟨L₁, hPre, hRest⟩ := hFold
  obtain ⟨L₂, hNote, hPost⟩ := foldOps_cons.mp hRest
  obtain ⟨plan, hStep⟩ := note_spec hNote
  exact hStep.first_touch (foldOps_passes_before hPost hPass) ((foldOps_plan? hPre).mpr hFresh)

end Passing

end ValkeyFdw
